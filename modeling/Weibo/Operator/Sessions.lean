import Weibo.Lib.Gaps
import Weibo.Operator.WindowFiring

/-!
# Session windows

Every record opens a window of its own, which is merged with the open windows of its key that it
meets. The open sessions of a key are the chains of its buffered times: closer than the gap within a
session, and not between sessions, whatever the order of arrival.
-/

namespace Weibo

open List Option

open Chain (Runs)
open ListState (Entry Splits)
open Gaps (Apart Cluster chains)

def WindowKey.covers (wk : WindowKey) (r : Record) : Bool :=
  decide (wk.start ≤ r.timestamp ∧ wk.stop > r.timestamp)

namespace WindowOperator

def times (records : List Record) : List Int := records.map Record.timestamp

structure Separated (gap : Int) (state : ListState WindowKey Record) : Prop where
  cluster : ∀ wk ∈ state.keys, Cluster gap wk.start wk.stop (times (state.getAll wk))
  owner : ∀ wk ∈ state.keys, ∀ r ∈ state.getAll wk, r.key = wk.key
  apart : ∀ wk ∈ state.keys, ∀ other ∈ state.keys, wk.key = other.key → wk ≠ other →
    Apart wk.start wk.stop other.start other.stop
  fits : ∀ wk ∈ state.keys, Time.unixNano wk.start = wk.start ∧ Time.unixNano wk.stop = wk.stop

variable {gap : Int} {state rest : ListState WindowKey Record}

theorem separated_empty : Separated gap ∅ :=
  ⟨by simp, by simp, by simp, by simp⟩

theorem Separated.splits (separated : Separated gap state) {fired : List (Entry WindowKey Record)}
    (splits : Splits fired state rest) : Separated gap rest := by
  have kept : ∀ wk ∈ rest.keys, wk ∈ state.keys ∧ state.getAll wk = rest.getAll wk := fun wk mem =>
    ⟨splits.mem_keys mem, splits.getAll fun taken => splits.disjoint taken mem⟩
  refine ⟨fun wk mem => ?_, fun wk mem => ?_, fun wk mem other mem' => ?_, fun wk mem => ?_⟩
  · rw [← (kept wk mem).2]
    exact separated.cluster wk (kept wk mem).1
  · rw [← (kept wk mem).2]
    exact separated.owner wk (kept wk mem).1
  · exact separated.apart wk (kept wk mem).1 other (kept other mem').1
  · exact separated.fits wk (kept wk mem).1

theorem Separated.wide (separated : Separated gap state) (positive : 0 < gap) {wk : WindowKey}
    (mem : wk ∈ state.keys) : wk.start < wk.stop := by
  have width := (separated.cluster wk mem).wide
  omega

theorem Separated.replace (separated : Separated gap state) (positive : 0 < gap)
    {found : List WindowKey} {merged : WindowKey} {records : List Record}
    (cluster : Cluster gap merged.start merged.stop (times records))
    (owner : ∀ r ∈ records, r.key = merged.key) (apart : ∀ wk ∈ state.keys, wk ∉ found →
      merged.key = wk.key →
      Apart merged.start merged.stop wk.start wk.stop)
    (fits : Time.unixNano merged.start = merged.start ∧ Time.unixNano merged.stop = merged.stop) :
    Separated gap ((found.foldl ListState.clear state).appendAll merged records) := by
  have fresh : ∀ wk, wk ∉ found → wk ∈ state.keys → wk ≠ merged := by
    rintro wk kept mem rfl
    have width := separated.wide positive mem
    rcases apart wk mem kept rfl with before | behind <;> omega
  have nonempty : records ≠ [] := by
    rintro rfl
    exact absurd cluster.first (by simp [times])
  have mem_keys : ∀ wk, wk ∈ ((found.foldl ListState.clear state).appendAll merged records).keys ↔
      wk = merged ∨ wk ∉ found ∧ wk ∈ state.keys := by
    intro wk
    rw [ListState.mem_keys_appendAll, ListState.mem_keys_clearAll]
    simp [nonempty]
  have merges : ((found.foldl ListState.clear state).appendAll merged records).getAll merged =
      records := by
    have absent : merged ∉ (found.foldl ListState.clear state).keys := fun mem => by
      rw [ListState.mem_keys_clearAll] at mem
      exact fresh merged mem.1 mem.2 rfl
    rw [ListState.getAll_appendAll, if_pos rfl, ListState.getAll_of_not_mem absent, nil_append]
  have keeps : ∀ wk, wk ∉ found ∧ wk ∈ state.keys →
      ((found.foldl ListState.clear state).appendAll merged records).getAll wk =
        state.getAll wk := by
    intro wk kept
    rw [ListState.getAll_appendAll, if_neg (fresh wk kept.1 kept.2), ListState.getAll_clearAll,
      if_neg kept.1]
  refine ⟨fun wk mem => ?_, fun wk mem => ?_, fun wk mem other mem' same differs => ?_,
    fun wk mem => ?_⟩
  · rcases (mem_keys wk).1 mem with rfl | kept
    · rw [merges]
      exact cluster
    · rw [keeps wk kept]
      exact separated.cluster wk kept.2
  · rcases (mem_keys wk).1 mem with rfl | kept
    · rw [merges]
      exact owner
    · rw [keeps wk kept]
      exact separated.owner wk kept.2
  · rcases (mem_keys wk).1 mem with rfl | kept <;> rcases (mem_keys other).1 mem' with rfl | kept'
    · exact absurd rfl differs
    · exact apart other kept'.2 kept'.1 same
    · exact (apart wk kept.2 kept.1 same.symm).symm
    · exact separated.apart wk kept.2 other kept'.2 same differs
  · rcases (mem_keys wk).1 mem with rfl | kept
    · exact fits
    · exact separated.fits wk kept.2

theorem unixNano_foldl {choose : Int → Int → Int} (chooses : ∀ a b, choose a b = a ∨ choose a b = b)
    {bounds : List Int} (fits : ∀ b ∈ bounds, Time.unixNano b = b) {first : Int}
    (own : Time.unixNano first = first) :
    Time.unixNano (bounds.foldl choose first) = bounds.foldl choose first := by
  refine foldlRecOn (motive := fun t => Time.unixNano t = t) _ _ own fun bound same b mem => ?_
  rcases chooses bound b with left | right
  · rw [left]
    exact same
  · rw [right]
    exact fits b mem

theorem assignToWindow_session {op : WindowOperator} (session : op.assigner.isSession = true)
    (choice : Nat) (key : Bytes) (win : Window) (record : Record) :
    (op.assignToWindow choice key win record).recState =
      ((op.overlapping choice key win).foldl ListState.clear op.recState).appendAll (toWindowKey key
          ⟨((op.overlapping choice key win).map WindowKey.start).foldl min win.start,
            ((op.overlapping choice key win).map WindowKey.stop).foldl max win.stop⟩)
        ((op.overlapping choice key win).flatMap op.recState.getAll ++ [record]) := by
  simp only [assignToWindow, session, if_true]
  cases op.overlapping choice key win with
  | nil | cons wk wks => rfl

theorem mem_overlapping {op : WindowOperator} {choice : Nat} {key : Bytes} {win : Window}
    {wk : WindowKey} : wk ∈ op.overlapping choice key win ↔
      wk ∈ op.recState.keys ∧ wk.key = key ∧ win.start < wk.stop ∧ wk.start < win.stop := by
  simp only [overlapping, mem_filter, decide_eq_true_eq]
  rw [(arrange_perm choice op.recState.keys).mem_iff]

theorem Separated.assign {op : WindowOperator} (separated : Separated gap op.recState)
    (session : op.assigner.isSession = true) (positive : 0 < gap) (choice : Nat) {record : Record}
    (fits : record.timestamp.unixNano = record.timestamp ∧
      (record.timestamp + gap : Time).unixNano = record.timestamp + gap) :
    Separated gap (op.assignToWindow choice record.key
      ⟨record.timestamp, record.timestamp + gap⟩ record.stored).recState := by
  let t := record.timestamp
  let found := op.overlapping choice record.key ⟨t, t + gap⟩
  let newStart := (found.map WindowKey.start).foldl min t
  let newEnd := (found.map WindowKey.stop).foldl max (t + gap)
  have meets : ∀ wk ∈ found, t < wk.stop ∧ wk.start < t + gap := fun wk mem =>
    (mem_overlapping.1 mem).2.2
  have starts : Time.unixNano newStart = newStart := by
    refine unixNano_foldl min_choice (fun b mem => ?_) fits.1
    obtain ⟨wk, inside, rfl⟩ := List.mem_map.1 mem
    exact (separated.fits wk (mem_overlapping.1 inside).1).1
  have stops : Time.unixNano newEnd = newEnd := by
    refine unixNano_foldl max_choice (fun b mem => ?_) fits.2
    obtain ⟨wk, inside, rfl⟩ := List.mem_map.1 mem
    exact (separated.fits wk (mem_overlapping.1 inside).1).2
  have key : toWindowKey record.key ⟨newStart, newEnd⟩ = ⟨record.key, newStart, newEnd⟩ := by
    simp only [toWindowKey, starts, stops]
  rw [assignToWindow_session session, show toWindowKey record.key _ = _ from key]
  refine separated.replace positive ?_ ?_ ?_ ⟨starts, stops⟩
  · have joined := (Gaps.cluster_singleton gap t).joinAll WindowKey.start WindowKey.stop
      (fun wk => times (op.recState.getAll wk))
      (fun wk mem => ⟨separated.cluster wk (mem_overlapping.1 mem).1, meets wk mem⟩)
      (mem_singleton_self t)
    refine joined.congr fun x => ?_
    have own : record.stored.timestamp = t := fits.1
    simp only [times, map_append, map_flatMap, map_cons, map_nil, own,
      mem_append, mem_singleton]
    exact or_comm
  · intro r inside
    rcases mem_append.1 inside with old | new
    · obtain ⟨c, here, there⟩ := mem_flatMap.1 old
      obtain ⟨going, own, -⟩ := mem_overlapping.1 here
      exact (separated.owner c going r there).trans own
    · rw [mem_singleton.1 new]
      rfl
  · intro wk mem kept same
    have other : ∀ c ∈ found, Apart c.start c.stop wk.start wk.stop := by
      intro c inside
      obtain ⟨going, own, -⟩ := mem_overlapping.1 inside
      exact separated.apart c going wk mem (own.trans same) fun eq => kept (eq ▸ inside)
    have own : Apart t (t + gap) wk.start wk.stop := by
      have distinct : ¬(t < wk.stop ∧ wk.start < t + gap) := fun both =>
        kept (mem_overlapping.2 ⟨mem, same.symm, both⟩)
      rw [not_and_or, not_lt, not_lt] at distinct
      exact distinct.symm
    exact Gaps.apart_joinAll WindowKey.start WindowKey.stop meets
      (separated.wide positive mem) other own

theorem Separated.round [TimeText] {op after : WindowOperator} (separated :
    Separated gap op.recState) (assigner : op.assigner = .session ⟨gap⟩) (positive : 0 < gap)
    {r : Record} {sends : List Record} (fits : r.isMarker = false → Fits op.assigner r)
    (round : Round op r sends after) : Separated gap after.recState := by
  cases round with
  | watermark is keys splits sent kept => exact separated.splits splits
  | barrier plain is => exact separated
  | late data late =>
    simp only [emitLate]
    split <;> exact separated
  | data choice data onTime =>
    obtain ⟨own, bounds⟩ := fits data
    have windows : op.assigner.assignWindows r.timestamp = [⟨r.timestamp, r.timestamp + gap⟩] := by
      rw [assigner]
      rfl
    rw [windows] at bounds
    simp only [handleDataRecord, windows, foldl_cons, foldl_nil]
    exact separated.assign (by rw [assigner]; rfl) positive choice
      ⟨own, (bounds _ (mem_singleton_self _)).2⟩

theorem separated_of_runs [TimeText] {op q : WindowOperator} (separated : Separated gap op.recState)
    (assigner : op.assigner = .session ⟨gap⟩) (positive : 0 < gap) {input sent : List Record}
    (fits : ∀ r ∈ input, r.isMarker = false → Fits op.assigner r)
    (runs : Runs windows op input sent q) : Separated gap q.recState := by
  induction runs with
  | nil => exact separated
  | cons choice reacts _ ih =>
    have round := round_of_process reacts
    have same := congrArg WindowConfig.assigner round.config
    refine ih (separated.round assigner positive (fits _ mem_cons_self) round)
      (same.trans assigner) fun r mem => ?_
    rw [same]
    exact fits r (.tail _ mem)

/-! ## The sessions of a key -/

def buffered (op : WindowOperator) (key : Bytes) : List Record :=
  (op.recState.entries.flatMap Sigma.snd).filter fun r => decide (r.key = key)

def sessions (op : WindowOperator) (key : Bytes) : List (Entry WindowKey Record) :=
  op.recState.entries.filter fun entry => decide (entry.1.key = key)

/-- The open sessions of a key, in their order, are the chains of its buffered times: each one
from its first time to the gap behind its last one, with the records of its chain. -/
def ChainSessions (gap : Int) (op : WindowOperator) (key : Bytes) : Prop :=
  ∃ ordered : List (Entry WindowKey Record), ordered.Perm (op.sessions key) ∧
    (ordered.Pairwise fun a b => a.1.stop ≤ b.1.start) ∧
    (ordered.map fun entry => (times entry.2).mergeSort (· ≤ ·)) =
      chains gap (times (op.buffered key)) ∧
    ∀ entry ∈ ordered, ((times entry.2).mergeSort (· ≤ ·)).head? = some entry.1.start ∧
      ((times entry.2).mergeSort (· ≤ ·)).getLast? = some (entry.1.stop - gap) ∧
      entry.2.Perm ((op.buffered key).filter entry.1.covers)

variable {op q : WindowOperator} {key : Bytes}

theorem Separated.buffered_eq (separated : Separated gap op.recState) (key : Bytes) :
    op.buffered key = (op.sessions key).flatMap Sigma.snd := by
  have owner : ∀ entry ∈ op.recState.entries, ∀ r ∈ entry.2, r.key = entry.1.key := by
    intro entry mem r inside
    obtain ⟨going, held⟩ := ListState.getAll_of_mem_entries mem
    exact separated.owner entry.1 going r (held ▸ inside)
  rw [buffered, sessions]
  generalize op.recState.entries = entries at owner
  induction entries with
  | nil => rfl
  | cons entry rest ih =>
    have here := owner entry mem_cons_self
    have later := ih fun entry mem => owner entry (.tail _ mem)
    rw [flatMap_cons, filter_append, later]
    by_cases own : entry.1.key = key
    · rw [filter_cons_of_pos (by simpa using own), flatMap_cons,
        filter_eq_self.2 fun r mem => by simpa [here r mem] using own]
    · rw [filter_cons_of_neg (by simpa using own),
        filter_eq_nil_iff.2 fun r mem => by simpa [here r mem] using own, nil_append]

variable {entry : Entry WindowKey Record}

theorem Separated.session (separated : Separated gap op.recState)
    (mem : entry ∈ op.sessions key) : entry.1 ∈ op.recState.keys ∧ entry.1.key = key ∧
      Cluster gap entry.1.start entry.1.stop (times entry.2) := by
  obtain ⟨inside, own⟩ := mem_filter.1 mem
  obtain ⟨going, held⟩ := ListState.getAll_of_mem_entries inside
  exact ⟨going, by simpa using own, held ▸ separated.cluster entry.1 going⟩

theorem Separated.exists_ordered (separated : Separated gap op.recState) (positive : 0 < gap)
    (key : Bytes) : ∃ ordered : List (Entry WindowKey Record), ordered.Perm (op.sessions key) ∧
      ordered.Pairwise fun a b => a.1.stop ≤ b.1.start := by
  let ordered := (op.sessions key).mergeSort fun a b => decide (a.1.start ≤ b.1.start)
  have perm : ordered.Perm (op.sessions key) := mergeSort_perm _ _
  have sorted : ordered.Pairwise fun a b => decide (a.1.start ≤ b.1.start) = true := by
    refine pairwise_mergeSort (fun a b c ab bc => ?_) (fun a b => ?_) _
    · simp only [decide_eq_true_eq] at ab bc ⊢
      omega
    · simp only [Bool.or_eq_true, decide_eq_true_eq]
      omega
  have distinct : ordered.Pairwise fun a b => a.1 ≠ b.1 := by
    have nodup : (op.sessions key).Pairwise fun a b => a.1 ≠ b.1 :=
      (pairwise_map.1 op.recState.keys_nodup).filter _
    exact (perm.pairwise_iff fun differs same => differs same.symm).2 nodup
  refine ⟨ordered, perm, (sorted.and distinct).imp_of_mem fun {a b} mem_a mem_b both => ?_⟩
  obtain ⟨open_a, own_a, -⟩ := separated.session (perm.mem_iff.1 mem_a)
  obtain ⟨open_b, own_b, -⟩ := separated.session (perm.mem_iff.1 mem_b)
  have width := separated.wide positive open_b
  have le := of_decide_eq_true both.1
  rcases separated.apart a.1 open_a b.1 open_b (own_a.trans own_b.symm) both.2 with before | behind
  · exact before
  · omega

theorem Separated.records (separated : Separated gap op.recState) (positive : 0 < gap)
    (mem : entry ∈ op.sessions key) : entry.2.Perm ((op.buffered key).filter entry.1.covers) := by
  obtain ⟨front, back, split⟩ := append_of_mem mem
  obtain ⟨going, own, cluster⟩ := separated.session mem
  have nodup : (op.sessions key).Pairwise fun a b => a.1 ≠ b.1 :=
    (pairwise_map.1 op.recState.keys_nodup).filter _
  have outside : ∀ other ∈ front ++ back, other.2.filter entry.1.covers = [] := by
    intro other inside
    have present : other ∈ op.sessions key := by
      rw [split]
      simp only [mem_append, mem_cons] at inside ⊢
      rcases inside with left | right
      · exact .inl left
      · exact .inr (.inr right)
    have differs : entry.1 ≠ other.1 := by
      rw [split, pairwise_append, pairwise_cons] at nodup
      rcases mem_append.1 inside with left | right
      · exact fun same => nodup.2.2 other left entry mem_cons_self same.symm
      · exact nodup.2.1.1 other right
    obtain ⟨open', own', cluster'⟩ := separated.session present
    refine filter_eq_nil_iff.2 fun r held => ?_
    have lower := cluster'.lower _ (List.mem_map_of_mem held)
    have upper := cluster'.upper _ (List.mem_map_of_mem held)
    simp only [WindowKey.covers, decide_eq_true_eq]
    rcases separated.apart entry.1 going other.1 open' (own.trans own'.symm) differs with
      before | behind
      <;> omega
  have inside : entry.2.filter entry.1.covers = entry.2 := by
    refine filter_eq_self.2 fun r held => ?_
    have lower := cluster.lower _ (List.mem_map_of_mem held)
    have upper := cluster.upper _ (List.mem_map_of_mem held)
    simp only [WindowKey.covers, decide_eq_true_eq]
    omega
  rw [separated.buffered_eq, split, flatMap_append, flatMap_cons, filter_append,
    filter_append, inside]
  have empty : ∀ part : List (Entry WindowKey Record), (∀ other ∈ part, other ∈ front ++ back) →
    (part.flatMap Sigma.snd).filter
      entry.1.covers = [] := by
    intro part contained
    rw [filter_flatMap, flatMap_eq_nil_iff]
    exact fun other mem => outside other (contained other mem)
  rw [empty front fun other mem => mem_append_left _ mem,
    empty back fun other mem => mem_append_right _ mem, append_nil, nil_append]

theorem Separated.chainSessions (separated : Separated gap op.recState) (positive : 0 < gap)
    (key : Bytes) : ChainSessions gap op key := by
  obtain ⟨ordered, perm, inOrder⟩ := separated.exists_ordered positive key
  refine ⟨ordered, perm, inOrder, ?_, fun entry mem => ?_⟩
  · have points : (ordered.flatMap fun entry => times entry.2).Perm (times (op.buffered key)) := by
      rw [separated.buffered_eq, times, map_flatMap]
      exact perm.flatMap_right _
    exact (Gaps.chains_of_clusters positive (fun entry => entry.1.start) (fun entry => entry.1.stop)
      (fun entry => times entry.2)
      (fun entry mem => (separated.session (perm.mem_iff.1 mem)).2.2) inOrder points).symm
  · have session := separated.session (perm.mem_iff.1 mem)
    exact ⟨session.2.2.head?, session.2.2.getLast?, separated.records positive (perm.mem_iff.1 mem)⟩

theorem ChainSessions.same (here : ChainSessions gap op key) (there : ChainSessions gap q key)
    (perm : (op.buffered key).Perm (q.buffered key)) (mem : entry ∈ op.sessions key) :
    ∃ other ∈ q.sessions key, other.1 = entry.1 ∧ other.2.Perm entry.2 := by
  obtain ⟨ordered, listed, -, chained, ends⟩ := here
  obtain ⟨ordered', listed', -, chained', ends'⟩ := there
  have chain : (times entry.2).mergeSort (· ≤ ·) ∈ ordered'.map fun entry =>
      (times entry.2).mergeSort (· ≤ ·) := by
    have points : (times (op.buffered key)).Perm (times (q.buffered key)) := perm.map _
    rw [chained', ← Gaps.chains_perm points]
    have mapped := List.mem_map_of_mem (f := fun entry : Entry WindowKey Record =>
      (times entry.2).mergeSort (· ≤ ·)) (listed.mem_iff.2 mem)
    rw [chained] at mapped
    exact mapped
  obtain ⟨other, inside, sorted⟩ := List.mem_map.1 chain
  obtain ⟨first, last, records⟩ := ends entry (listed.mem_iff.2 mem)
  obtain ⟨first', last', records'⟩ := ends' other inside
  rw [sorted] at first' last'
  have start : other.1.start = entry.1.start := some.inj (first'.symm.trans first)
  have stop : other.1.stop = entry.1.stop := by
    have same := some.inj (last'.symm.trans last)
    omega
  have own : entry.1.key = key := by simpa using (mem_filter.1 mem).2
  have present : other ∈ q.sessions key := listed'.mem_iff.1 inside
  have own' : other.1.key = key := by simpa using (mem_filter.1 present).2
  have same : other.1 = entry.1 := by
    obtain ⟨⟨k, b, e⟩, held⟩ := other
    obtain ⟨⟨k', b', e'⟩, held'⟩ := entry
    simp_all
  refine ⟨other, present, same, ?_⟩
  rw [same] at records'
  exact records'.trans ((perm.symm.filter _).trans records.symm)

/-- For every positive gap and every input whose times and session bounds fit 64 bits, in every
reachable state: the open sessions of each key are exactly the chains of its buffered times, and so
do not depend on the order in which the records came. -/
theorem sessions_are_chains [TimeText] (config : WindowConfig) (gap : Duration) (positive : 0 < gap)
    (assigner : config.assigner = .session ⟨gap⟩) (input sent : List Record) (q : WindowOperator)
    (fits : ∀ r ∈ input, r.isMarker = false → Fits config.assigner r)
    (runs : Runs windows { toWindowConfig := config } input sent q) (key : Bytes) :
    ChainSessions gap q key ∧
      ∀ (input' sent' : List Record) (q' : WindowOperator),
        (∀ r ∈ input', r.isMarker = false → Fits config.assigner r) →
        Runs windows { toWindowConfig := config } input' sent' q' →
        (q.buffered key).Perm (q'.buffered key) →
        ∀ entry ∈ q.sessions key, ∃ other ∈ q'.sessions key, other.1 = entry.1 ∧
          other.2.Perm entry.2 := by
  have separated : Separated gap q.recState :=
    separated_of_runs separated_empty assigner positive fits runs
  have here := separated.chainSessions positive key
  refine ⟨here, fun input' sent' q' fits' runs' perm entry mem => ?_⟩
  have separated' : Separated gap q'.recState :=
    separated_of_runs separated_empty assigner positive fits' runs'
  exact here.same (separated'.chainSessions positive key) perm mem

/-! ## At the end of the range of Unix nanoseconds -/

section Examples

attribute [local instance] TimeText.blank

def tens : WindowConfig := { assigner := .session ⟨10⟩ }

def instant (t : Time) : Record := { timestamp := t }

def oneSession (wk : WindowKey) (records : List Record) : WindowOperator :=
  { toWindowConfig := tens, recState := ⟨[⟨wk, records⟩], by simp⟩ }

theorem oneSession_overlapping (choice : Nat) (wk : WindowKey) (records : List Record) (key : Bytes)
    (win : Window) : (oneSession wk records).overlapping choice key win =
      if wk.key = key ∧ win.start < wk.stop ∧ wk.start < win.stop then [wk] else [] := by
  have keys : (oneSession wk records).recState.keys = [wk] := rfl
  rw [overlapping, keys, arrange_singleton, filter_singleton]
  simp

/-- A second record extends the session of the first. -/
theorem sessions_are_chains_extended : ∃ sent q, Runs windows { toWindowConfig := tens }
    [instant 0, instant 5] sent q ∧ ChainSessions 10 q [] := by
  have second : windows.react (oneSession ⟨[], 0, 10⟩ [instant 0]) 0 (instant 5) =
      .send [] (oneSession ⟨[], 0, 15⟩ [instant 0, instant 5]) := by
    have assigns : windows.react (oneSession ⟨[], 0, 10⟩ [instant 0]) 0 (instant 5) = .send []
        ((oneSession ⟨[], 0, 10⟩ [instant 0]).assignToWindow 0 [] ⟨5, 15⟩ (instant 5)) := rfl
    rw [assigns, assignToWindow, oneSession_overlapping]
    rfl
  have runs : Runs windows { toWindowConfig := tens } [instant 0, instant 5] ([] ++ ([] ++ []))
      (oneSession ⟨[], 0, 15⟩ [instant 0, instant 5]) := .cons 0 rfl (.cons 0 second (.nil _))
  exact ⟨_, _, runs,
    (sessions_are_chains tens 10 (by decide) rfl _ _ _ (by decide) runs []).1⟩

/-- Where the end of a session is beyond the last Unix nanosecond, two records that are one
nanosecond apart get a session each. -/
theorem sessions_split_at_end_of_time : ∃ sent q,
    Runs windows { toWindowConfig := tens }
      [instant 9223372036854775803, instant 9223372036854775804] sent q ∧
    ¬ChainSessions 10 q [] := by
  let first : WindowKey := ⟨[], 9223372036854775803, -9223372036854775803⟩
  let second : WindowKey := ⟨[], 9223372036854775804, -9223372036854775802⟩
  let split : WindowOperator :=
    { toWindowConfig := tens
      recState := (oneSession first [instant 9223372036854775803]).recState.append second
        (instant 9223372036854775804) }
  have opens : windows.react (oneSession first [instant 9223372036854775803]) 0
      (instant 9223372036854775804) = .send [] split := by
    have assigns : windows.react (oneSession first [instant 9223372036854775803]) 0
        (instant 9223372036854775804) = .send []
          ((oneSession first [instant 9223372036854775803]).assignToWindow 0 []
            ⟨9223372036854775804, 9223372036854775814⟩ (instant 9223372036854775804)) := rfl
    rw [assigns, assignToWindow, oneSession_overlapping]
    rfl
  refine ⟨_, split, .cons 0 rfl (.cons 0 opens (.nil _)), ?_⟩
  rintro ⟨ordered, perm, -, chained, -⟩
  -- one chain holds both times, but there are two sessions
  have cluster : Cluster 10 9223372036854775803 9223372036854775814
      [9223372036854775803, 9223372036854775804] :=
    (Gaps.cluster_singleton 10 9223372036854775803).insert (t := 9223372036854775804) (by decide)
      (by decide)
  have one : chains 10 (times (split.buffered [])) = [()].map fun _ : Unit =>
      [9223372036854775803, 9223372036854775804].mergeSort (· ≤ ·) := by
    refine Gaps.chains_of_clusters (by decide) (fun _ => 9223372036854775803)
      (fun _ => 9223372036854775814) (fun _ => [9223372036854775803, 9223372036854775804])
      (fun _ _ => cluster) (pairwise_singleton _ _) ?_
    exact Perm.swap _ _ _
  have lengths := congrArg length chained
  rw [one, length_map, perm.length_eq] at lengths
  exact absurd lengths (by decide)

end Examples

end WindowOperator

end Weibo
