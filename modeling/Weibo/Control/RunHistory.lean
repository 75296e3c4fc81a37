import Mathlib.Algebra.Group.Nat.Defs
import Mathlib.Data.Char
import Mathlib.Data.List.DropRight
import Mathlib.Data.List.Pairwise
import Mathlib.Data.List.Sort
import Weibo.Lib.FirstDifference

/-!
# The order of the run history

The store keeps the start of a run as the text that `time.RFC3339Nano` makes of it, and SQLite
orders the runs by that text; the controller orders them by their instants. The text leaves out
trailing zeros of the fraction, and `Z` is greater than a digit or a dot.
-/

namespace Weibo.RunHistory

open FirstDifference List

/-- A `time.Time` in UTC, with the years that RFC 3339 has. -/
structure UTC where
  year : Fin 10000
  month : Fin 13
  day : Fin 32
  hour : Fin 24
  minute : Fin 60
  second : Fin 60
  nanosecond : Fin 1000000000
  deriving DecidableEq

namespace UTC

def fields (t : UTC) : List Nat := [t.year, t.month, t.day, t.hour, t.minute, t.second]

def place (t : UTC) : List Nat := t.fields ++ [t.nanosecond.val]

theorem place_injective : Function.Injective place := by
  intro a b same
  simp only [place, fields, cons_append, nil_append, cons.injEq, Fin.val_inj, and_true] at same
  obtain ⟨year, month, day, hour, minute, second, nanosecond⟩ := same
  cases a
  cases b
  simp_all

/-- Instants in time: `Before` and `After`. -/
instance : LinearOrder UTC := LinearOrder.lift' place place_injective

end UTC

/-! ## The text of an instant -/

def digits : Nat → Nat → List Char
  | 0, _ => []
  | width + 1, n => digits width (n / 10) ++ [Nat.digitChar (n % 10)]

def render : List (List Char × Nat) → List Nat → List Char
  | (separator, width) :: layout, n :: rest => separator ++ digits width n ++ render layout rest
  | _, _ => []

def layout : List (List Char × Nat) :=
  [([], 4), (['-'], 2), (['-'], 2), (['T'], 2), ([':'], 2), ([':'], 2)]

/-- The digits of `.999999999`: nine of them without trailing zeros. -/
def fraction (t : UTC) : List Char := (digits 9 t.nanosecond).rdropWhile fun c => c = '0'

def tail (digits : List Char) : List Char := if digits = [] then ['Z'] else '.' :: digits ++ ['Z']

/-- `Format(time.RFC3339Nano)`. -/
def format (t : UTC) : List Char := render layout t.fields ++ tail (fraction t)

/-! ## The store and the controller -/

/-- `store.Run`, as far as its place in the history matters. -/
structure Run where
  id : String
  jobID : String
  containerID : String := ""
  started : UTC
  stopped : Option UTC := none
  deriving DecidableEq

structure Table where
  rows : List Run
  key : (rows.map Run.id).Nodup

namespace Table

variable (table : Table) (job : String)

def orderByStartedAt (rows : List Run) : List Run :=
  rows.insertionSort fun a b => format b.started ≤ format a.started

/-- `WHERE job_id=?`. -/
def ofJob : List Run := table.rows.filter fun r => r.jobID = job

def listRuns : List Run := orderByStartedAt (table.ofJob job)

def latestRun : Option Run := (table.listRuns job).head?

/-- The runs whose ids `PruneTerminalRuns` selects. -/
def selectTerminal (keep : Int) : List Run :=
  let keep := if keep < 0 then 0 else keep
  let terminal := (table.ofJob job).filter fun r => r.stopped.isSome
  if keep ≤ 0 then terminal else (orderByStartedAt terminal).drop keep.toNat

/-- The rows that `PruneTerminalRuns` deletes. -/
def pruneTerminalRuns (keep : Int) : List Run :=
  table.rows.filter fun r => r.id ∈ (table.selectTerminal job keep).map Run.id

/-- The controller's `pruneTerminalRuns`: the runs whose containers it removes, and the rows it has
the store delete. -/
def prune (retention : Int) : List Run × List Run :=
  if retention < 0 then ([], [])
  else
    let terminal := (table.listRuns job).filter fun r => r.stopped.isSome
    if (terminal.length : Int) ≤ retention then ([], [])
    else
      let newest := terminal.insertionSort fun a b => b.started ≤ a.started
      ((newest.drop retention.toNat).filter fun r => r.containerID ≠ "",
        table.pruneTerminalRuns job retention)

end Table

/-! ## Texts in order -/

theorem digit_of_mem {width n : Nat} {c : Char} (mem : c ∈ digits width n) : '0' ≤ c ∧ c < 'Z' := by
  induction width generalizing n with
  | zero => cases mem
  | succ width ih =>
    rcases mem_append.1 mem with old | last
    · exact ih old
    · have all : ∀ d < 10, '0' ≤ Nat.digitChar d ∧ Nat.digitChar d < 'Z' := by decide
      rw [mem_singleton.1 last]
      exact all _ (Nat.mod_lt _ (by decide))

theorem digits_below {width n m : Nat} (less : n < m) (fits : m < 10 ^ width) :
    Below (digits width n) (digits width m) := by
  induction width generalizing n m with
  | zero => omega
  | succ width ih =>
    rcases Nat.lt_or_ge (n / 10) (m / 10) with high | same
    · exact (ih high (by omega)).append _ _
    · have all : ∀ e < 10, ∀ d < e, Nat.digitChar d < Nat.digitChar e := by decide
      have equal : n / 10 = m / 10 := by omega
      rw [digits, digits, equal]
      exact (below_cons (all _ (Nat.mod_lt _ (by decide)) _ (by omega)) [] []).behind _

theorem render_below {layout : List (List Char × Nat)} {first second : List Nat}
    (fits : Forall₂ (fun entry n => n < 10 ^ entry.2) layout second) (less : first < second)
    (long : first.length = second.length) : Below (render layout first) (render layout second) := by
  induction fits generalizing first with
  | nil => exact absurd less (not_lt_nil _)
  | @cons entry n layout rest fit fits ih =>
    cases first with
    | nil => cases long
    | cons m others =>
      rcases cons_lt_cons_iff.1 less with lower | ⟨rfl, lower⟩
      · exact ((digits_below lower fit).behind _).append _ _
      · exact (ih lower (by simpa using long)).behind _

theorem rdropWhile_append {α : Type} (p : α → Bool) (x y : List α) : (x ++ y).rdropWhile p =
    if y.all p then x.rdropWhile p else x ++ y.rdropWhile p := by
  rw [rdropWhile, reverse_append, dropWhile_append]
  by_cases all : y.all p
  · have gone : y.reverse.dropWhile p = [] := by
      rw [dropWhile_eq_nil_iff]
      intro a mem
      exact all_eq_true.1 all a (mem_reverse.1 mem)
    simp [gone, all, rdropWhile]
  · have left : y.reverse.dropWhile p ≠ [] := by
      intro gone
      refine all (all_eq_true.2 fun a mem => ?_)
      exact dropWhile_eq_nil_iff.1 gone a (mem_reverse.2 mem)
    simp [left, all, rdropWhile]

theorem rdropWhile_cons {a : Char} {rest : List Char}
    (given : ¬ (a :: rest).all (fun c => c = '0')) :
    ∃ kept, (a :: rest).rdropWhile (fun c => c = '0') = a :: kept := by
  rw [← singleton_append, rdropWhile_append]
  split
  · next zeros =>
    have real : ¬ a = '0' := fun zero => given (by simpa [zero] using zeros)
    exact ⟨[], by simp [rdropWhile_singleton, real]⟩
  · exact ⟨_, rfl⟩

theorem fraction_order {n m : Nat} (less : n < m) (fits : m < 10 ^ 9) :
    let first := (digits 9 n).rdropWhile fun c => c = '0'
    let second := (digits 9 m).rdropWhile fun c => c = '0'
    (first <+: second ∧ Below (tail second) (tail first)) ∨
      (¬ first <+: second ∧ Below (tail first) (tail second)) := by
  intro first second
  obtain ⟨front, a, b, rest, others, here, there, smaller⟩ := digits_below less fits
  have digit : '0' ≤ a := (@digit_of_mem 9 n a (by rw [here]; simp)).1
  have real : ¬ (b :: others).all (fun c => c = '0') := by
    intro zeros
    have zero : b = '0' := by simpa using all_eq_true.1 zeros b mem_cons_self
    exact absurd smaller (not_lt_of_ge (zero ▸ digit))
  obtain ⟨kept, is⟩ := rdropWhile_cons real
  have later : second = front ++ b :: kept := by
    change (digits 9 m).rdropWhile _ = _
    rw [there, rdropWhile_append, if_neg real, is]
  by_cases zeros : (a :: rest).all (fun c => c = '0')
  · -- The earlier fraction ends before the digit in which they differ.
    have short : first = front.rdropWhile fun c => c = '0' := by
      change (digits 9 n).rdropWhile _ = _
      rw [here, rdropWhile_append, if_pos zeros]
    obtain ⟨dropped, split⟩ := rdropWhile_prefix (fun c => decide (c = '0')) front
    rw [← short] at split
    have longer : second = first ++ (dropped ++ b :: kept) := by rw [later, ← split, append_assoc]
    refine .inl ⟨longer ▸ prefix_append _ _, ?_⟩
    obtain ⟨c, more, next⟩ := exists_cons_of_ne_nil (append_ne_nil_of_right_ne_nil dropped
      (cons_ne_nil b kept))
    rw [next] at longer
    have part : second <+: digits 9 m := rdropWhile_prefix _ _
    have low : c < 'Z' := (digit_of_mem (part.subset (by rw [longer]; simp))).2
    by_cases empty : first = []
    · rw [tail, tail, if_pos empty, if_neg (by simp [longer])]
      exact below_cons (by decide) _ _
    · rw [tail, tail, if_neg empty, if_neg (by simp [longer]), longer]
      simpa using (below_cons low (more ++ ['Z']) []).behind ('.' :: first)
  · obtain ⟨left, was⟩ := rdropWhile_cons zeros
    have earlier : first = front ++ a :: left := by
      change (digits 9 n).rdropWhile _ = _
      rw [here, rdropWhile_append, if_neg zeros, was]
    have below : Below first second := ⟨front, a, b, left, kept, earlier, later, smaller⟩
    refine .inr ⟨below.not_initial, ?_⟩
    rw [tail, tail, if_neg (by simp [earlier]), if_neg (by simp [later])]
    exact (below.behind ['.']).append _ _

def Begins (a b : UTC) : Prop :=
  a.fields = b.fields ∧ a.nanosecond < b.nanosecond ∧ fraction a <+: fraction b

instance (a b : UTC) : Decidable (Begins a b) := inferInstanceAs (Decidable (_ ∧ _ ∧ _))

theorem fields_fit (t : UTC) : Forall₂ (fun entry n => n < 10 ^ entry.2) layout t.fields :=
  .cons t.year.isLt
    (.cons (lt_trans t.month.isLt (by decide)) (.cons (lt_trans t.day.isLt (by decide))
    (.cons (lt_trans t.hour.isLt (by decide)) (.cons (lt_trans t.minute.isLt (by decide))
      (.cons (lt_trans t.second.isLt (by decide)) .nil)))))

theorem lt_cases {a b : UTC} (earlier : a < b) :
    a.fields < b.fields ∨ a.fields = b.fields ∧ a.nanosecond < b.nanosecond := by
  have placed : a.place < b.place := earlier
  rcases lt_trichotomy a.fields b.fields with less | same | more
  · exact .inl less
  · refine .inr ⟨same, ?_⟩
    rcases lt_trichotomy a.nanosecond b.nanosecond with less | equal | more
    · exact less
    · rw [UTC.place, UTC.place, same, equal] at placed
      exact absurd placed (lt_irrefl _)
    · rw [UTC.place, UTC.place, same] at placed
      exact absurd placed (lt_asymm ((below_cons (Fin.lt_def.1 more) [] []).behind _).lt)
  · exact absurd placed (lt_asymm ((below_of_lt more rfl).append _ _).lt)

theorem format_order {a b : UTC} (earlier : a < b) :
    (Begins a b ∧ format b < format a) ∨ (¬ Begins a b ∧ format a < format b) := by
  rcases lt_cases earlier with less | ⟨same, less⟩
  · exact .inr ⟨fun begins => ne_of_lt less begins.1,
      ((render_below (fields_fit b) less rfl).append _ _).lt⟩
  · rw [format, format, same]
    rcases fraction_order (Fin.lt_def.1 less) b.nanosecond.isLt with
      ⟨begins, below⟩ | ⟨apart, below⟩
    · exact .inl ⟨⟨same, less, begins⟩, (below.behind _).lt⟩
    · exact .inr ⟨fun begins => apart begins.2.2, (below.behind _).lt⟩

theorem Begins.lt {a b : UTC} (begins : Begins a b) : a < b := by
  change a.place < b.place
  rw [UTC.place, UTC.place, begins.1]
  exact ((below_cons (Fin.lt_def.1 begins.2.1) [] []).behind _).lt

/-! ## The history -/

namespace Table

variable {table : Table} {job : String}

theorem pairwise_orderByStartedAt (rows : List Run) :
    (orderByStartedAt rows).Pairwise fun a b => format b.started ≤ format a.started := by
  have total : Std.Total fun a b : Run => format b.started ≤ format a.started :=
    ⟨fun a b => le_total _ _⟩
  have trans : IsTrans Run fun a b => format b.started ≤ format a.started :=
    ⟨fun a b c first second => le_trans second first⟩
  exact pairwise_insertionSort _ _

def Apart (rows : List Run) : Prop := ∀ a ∈ rows, ∀ b ∈ rows, ¬ Begins a.started b.started

theorem Apart.le_of_format {rows : List Run} (apart : Apart rows) {a b : Run} (mem : a ∈ rows)
    (mem' : b ∈ rows) (le : format b.started ≤ format a.started) : b.started ≤ a.started := by
  rcases le_or_gt b.started a.started with before | after
  · exact before
  · rcases format_order after with ⟨begins, -⟩ | ⟨-, less⟩
    · exact absurd begins (apart a mem b mem')
    · exact absurd less (not_lt_of_ge le)

/-- `LatestRun` returns the latest run of the job, if it has one. -/
def LatestIsLatest (table : Table) (job : String) : Prop :=
  (table.latestRun job = none ↔ table.ofJob job = []) ∧
  ∀ latest, table.latestRun job = some latest → latest ∈ table.ofJob job ∧
    ∀ r ∈ table.ofJob job, r.started ≤ latest.started

/-- `ListRuns` lists the runs of the job from the latest to the earliest start. -/
def ListsByStart (table : Table) (job : String) : Prop :=
  (table.listRuns job).Perm (table.ofJob job) ∧
  (table.listRuns job).Pairwise fun a b => b.started < a.started

/-- A run loses its container exactly if its row is deleted. -/
def PrunesAlike (table : Table) (job : String) (retention : Int) : Prop :=
  ∀ r ∈ table.rows, r.containerID ≠ "" →
    (r ∈ (table.prune job retention).1 ↔ r ∈ (table.prune job retention).2)

theorem mem_of_selectTerminal {keep : Int} {r : Run} (mem : r ∈ table.selectTerminal job keep) :
    r ∈ table.rows := by
  have sub :
    table.selectTerminal job keep ⊆ (table.ofJob job).filter fun r => r.stopped.isSome := by
    rw [selectTerminal]
    generalize (if keep < 0 then 0 else keep) = keep
    split
    · exact fun _ => id
    · exact fun q mem => (perm_insertionSort _ _).mem_iff.1 (mem_of_mem_drop mem)
  exact mem_of_mem_filter (mem_of_mem_filter (sub mem))

theorem mem_pruneTerminalRuns {keep : Int} {r : Run} :
    r ∈ table.pruneTerminalRuns job keep ↔ r ∈ table.selectTerminal job keep := by
  rw [pruneTerminalRuns, mem_filter, decide_eq_true_eq, mem_map]
  constructor
  · rintro ⟨mem, q, selected, same⟩
    rwa [← inj_on_of_nodup_map table.key (mem_of_selectTerminal selected) mem same]
  · exact fun selected => ⟨mem_of_selectTerminal selected, r, selected, rfl⟩

/-- `PruneTerminalRuns` deletes just the surplus of the job's terminal runs, the least by text. -/
theorem pruneTerminalRuns_surplus (table : Table) (job : String) (keep : Int) :
    (table.pruneTerminalRuns job keep).length =
        ((table.ofJob job).filter fun r => r.stopped.isSome).length - keep.toNat ∧
      ∀ r ∈ table.pruneTerminalRuns job keep, r.jobID = job ∧ r.stopped.isSome = true ∧
        ∀ q ∈ table.ofJob job, q.stopped.isSome = true → q ∉ table.pruneTerminalRuns job keep →
          format r.started ≤ format q.started := by
  generalize terminals : (table.ofJob job).filter (fun r => r.stopped.isSome) = terminal
  have sorting : (orderByStartedAt terminal).Perm terminal := perm_insertionSort _ _
  have selected :
      (table.selectTerminal job keep).Perm ((orderByStartedAt terminal).drop keep.toNat) := by
    rw [selectTerminal, terminals]
    rcases le_or_gt keep 0 with none | given
    · have zero : keep.toNat = 0 := by omega
      rw [if_pos (by split <;> omega), zero, drop_zero]
      exact sorting.symm
    · rw [if_neg (by omega), if_neg (by omega)]
  have rows : table.rows.Nodup := Nodup.of_map _ table.key
  have unique : terminal.Nodup := terminals ▸ (rows.filter _).filter _
  have pruned :
      (table.pruneTerminalRuns job keep).Perm ((orderByStartedAt terminal).drop keep.toNat) :=
    (perm_ext_iff_of_nodup (rows.filter _)
      ((sorting.nodup_iff.2 unique).sublist (drop_sublist ..))).2 fun _ =>
        mem_pruneTerminalRuns.trans selected.mem_iff
  refine ⟨by rw [pruned.length_eq, length_drop, sorting.length_eq], fun r gone => ?_⟩
  have last := pruned.mem_iff.1 gone
  obtain ⟨inside, ended⟩ := mem_filter.1 (terminals ▸ sorting.mem_iff.1 (mem_of_mem_drop last))
  refine ⟨of_decide_eq_true (mem_filter.1 inside).2, ended, fun q mem done kept => ?_⟩
  have parts := pairwise_orderByStartedAt terminal
  have found : q ∈ orderByStartedAt terminal :=
    sorting.mem_iff.2 (terminals ▸ mem_filter.2 ⟨mem, done⟩)
  rw [← take_append_drop keep.toNat (orderByStartedAt terminal)] at parts found
  rcases mem_append.1 found with first | later
  · exact (pairwise_append.1 parts).2.2 q first r last
  · exact absurd (pruned.mem_iff.2 later) kept

theorem Apart.listsByStart (apart : Apart (table.ofJob job))
    (distinct : ((table.ofJob job).map Run.started).Nodup) : table.ListsByStart job := by
  have perm : (table.listRuns job).Perm (table.ofJob job) := perm_insertionSort _ _
  have differ := pairwise_map.1 ((perm.map Run.started).nodup_iff.2 distinct)
  refine ⟨perm, ((pairwise_orderByStartedAt _).and differ).imp_of_mem fun {a b} mem mem' both => ?_⟩
  exact lt_of_le_of_ne
    (apart.le_of_format (perm.mem_iff.1 mem) (perm.mem_iff.1 mem') both.1) both.2.symm

theorem ListsByStart.latest (lists : table.ListsByStart job) : table.LatestIsLatest job := by
  refine ⟨?_, fun latest found => ?_⟩
  · rw [latestRun, List.head?_eq_none_iff]
    exact ⟨fun none => nil_perm.1 (none ▸ lists.1), fun none => perm_nil.1 (none ▸ lists.1)⟩
  · obtain ⟨rest, split⟩ := List.head?_eq_some_iff.1 found
    obtain ⟨perm, ordered⟩ := lists
    rw [split] at perm ordered
    refine ⟨perm.mem_iff.1 mem_cons_self, fun r mem => ?_⟩
    rcases mem_cons.1 (perm.mem_iff.2 mem) with rfl | later
    · exact le_refl _
    · exact le_of_lt ((pairwise_cons.1 ordered).1 r later)

theorem Apart.orderByStartedAt_filter (apart : Apart (table.ofJob job))
    (distinct : ((table.ofJob job).map Run.started).Nodup) :
    orderByStartedAt ((table.ofJob job).filter fun r => r.stopped.isSome) =
      (table.listRuns job).filter fun r => r.stopped.isSome := by
  have perm : (table.listRuns job).Perm (table.ofJob job) := perm_insertionSort _ _
  have sorted : (orderByStartedAt ((table.ofJob job).filter fun r => r.stopped.isSome)).Perm
      ((table.ofJob job).filter fun r => r.stopped.isSome) := perm_insertionSort _ _
  refine Perm.eq_of_pairwise (fun a b mem mem' first second => ?_) (pairwise_orderByStartedAt _)
    ((pairwise_orderByStartedAt _).filter _) (sorted.trans (perm.filter _).symm)
  have here := mem_of_mem_filter (sorted.mem_iff.1 mem)
  have there := perm.mem_iff.1 (mem_of_mem_filter mem')
  exact inj_on_of_nodup_map distinct here there
    (le_antisymm (apart.le_of_format there here second) (apart.le_of_format here there first))

theorem Apart.prunesAlike (apart : Apart (table.ofJob job))
    (distinct : ((table.ofJob job).map Run.started).Nodup) (retention : Int) :
    table.PrunesAlike job retention := by
  intro r _ container
  rw [prune]
  split
  · rfl
  · next nonnegative =>
    dsimp only
    split
    · rfl
    · have ordered := ((apart.listsByStart distinct).2.imp fun less => le_of_lt less).filter
        fun r => r.stopped.isSome
      rw [mem_pruneTerminalRuns, mem_filter, ordered.insertionSort_eq, selectTerminal,
        if_neg nonnegative,
        decide_eq_true_eq, and_iff_left container]
      split
      · next none =>
        have zero : retention.toNat = 0 := by omega
        rw [zero, drop_zero]
        exact ((perm_insertionSort _ _).filter _).mem_iff
      · rw [apart.orderByStartedAt_filter distinct]

/-- The history of a job with distinct starts agrees with time, for every retention bound, exactly
when no start begins another one in its second. -/
theorem history_agrees_iff (table : Table) (job : String)
    (distinct : ((table.ofJob job).map Run.started).Nodup) :
    (table.LatestIsLatest job ∧ table.ListsByStart job ∧
      ∀ retention, table.PrunesAlike job retention) ↔
      ∀ a ∈ table.ofJob job, ∀ b ∈ table.ofJob job, ¬ Begins a.started b.started := by
  constructor
  · rintro ⟨-, ⟨perm, ordered⟩, -⟩ a mem b mem'
    -- In a list that is in both orders, no start begins another one, in either direction.
    have both : (table.listRuns job).Pairwise fun a b =>
        ¬ Begins a.started b.started ∧ ¬ Begins b.started a.started := by
      refine ((pairwise_orderByStartedAt _).and ordered).imp fun {a b} ⟨text, later⟩ =>
        ⟨fun begins => ?_, fun begins => ?_⟩
      · exact lt_asymm later begins.lt
      · rcases format_order later with ⟨-, less⟩ | ⟨apart, -⟩
        · exact absurd less (not_lt_of_ge text)
        · exact apart begins
    have symmetric : Std.Symm fun a b : Run =>
        ¬ Begins a.started b.started ∧ ¬ Begins b.started a.started := ⟨fun _ _ pair => pair.symm⟩
    exact (both.forall_of_forall
      (fun r _ => ⟨fun begins => lt_irrefl _ begins.lt, fun begins => lt_irrefl _ begins.lt⟩)
      (perm.mem_iff.2 mem) (perm.mem_iff.2 mem')).1
  · intro apart
    have lists := Apart.listsByStart apart distinct
    exact ⟨lists.latest, lists, Apart.prunesAlike apart distinct⟩

/-- Starts in different seconds are in order. -/
theorem seconds_agree : (Table.mk [⟨"a", "job", "", ⟨2026, 1, 1, 0, 0, 0, 0⟩, none⟩,
    ⟨"b", "job", "", ⟨2026, 1, 1, 0, 0, 1, 500000000⟩, none⟩] (by decide)).LatestIsLatest "job" :=
  ((history_agrees_iff _ "job" (by decide)).2 (by decide)).1

/-- A run that starts on the second counts as later than one half a second behind it. -/
theorem latestRun_on_the_second :
    let early : Run := ⟨"a", "job", "", ⟨2026, 1, 1, 0, 0, 0, 0⟩, none⟩
    let late : Run := ⟨"b", "job", "", ⟨2026, 1, 1, 0, 0, 0, 500000000⟩, none⟩
    ∃ table : Table, table.rows = [early, late] ∧ table.latestRun "job" = some early ∧
      early.started < late.started :=
  ⟨⟨_, by decide⟩, rfl, by decide, by decide⟩

end Table

end Weibo.RunHistory
