import Weibo.Operator.PerKey

/-!
# Event-time timers over whole runs

A watermark takes the due timers of a key away before it calls `OnTimer` for them, so that a
registration from inside `OnTimer` waits for a later watermark, even one that is due.
-/

namespace Weibo.KeyedProcessOperator

open List Reaction

inductive TimerCall where
  | register (key : Bytes) (ts : Time)
  | fire (key : Bytes) (ts : Time)
  deriving DecidableEq

def registrations (key : Bytes) : Option KeyedEffect → List TimerCall
  | none => []
  | some effect => effect.timers.map (.register key)

def dueCalls (onTimer : KeyedContext → Time → Option KeyedEffect) (key : Bytes) :
    List Int → KeyedProcessOperator → List TimerCall
  | [], _ => []
  | ts :: rest, op =>
    .fire key ts :: registrations key (onTimer (op.contextFor key op.watermark) ts) ++
      match onTimer (op.contextFor key op.watermark) ts with
      | none => []
      | some effect => dueCalls onTimer key rest (op.apply key effect)

def due (op : KeyedProcessOperator) (key : Bytes) : List Int :=
  (op.timers.getAll key).filter fun ts => decide (ts ≤ op.watermark)

def take (op : KeyedProcessOperator) (key : Bytes) : KeyedProcessOperator :=
  let future := (op.timers.getAll key).filter fun ts => !decide (ts ≤ op.watermark)
  { op with timers := if future.isEmpty then op.timers.clear key else op.timers.insert key future }

def keysCalls (onTimer : KeyedContext → Time → Option KeyedEffect) :
    List Bytes → KeyedProcessOperator → List TimerCall
  | [], _ => []
  | key :: rest, op =>
    dueCalls onTimer key (op.due key) (op.take key) ++
      match (fireKey onTimer key op).next with
      | none => []
      | some op => keysCalls onTimer rest op

def fireCalls (op : KeyedProcessOperator) (choice : Nat) : List TimerCall :=
  match op.onTimer with
  | none => []
  | some onTimer =>
    if op.watermark.isZero then [] else keysCalls onTimer (arrange choice op.timers.keys) op

/-- The calls of one round of the loop of `Process`. -/
def calls (op : KeyedProcessOperator) (choice : Nat) (r : Record) : List TimerCall :=
  if r.isBarrier then []
  else if r.isWatermark then { op with watermark := max op.watermark r.timestamp }.fireCalls choice
  else registrations r.key (op.fn (op.contextFor r.key r.timestamp) r)

def fired (key : Bytes) (calls : List TimerCall) : List Time :=
  calls.filterMap fun
    | .fire other ts => if other = key then some ts else none
    | .register _ _ => none

def Registers (calls : List TimerCall) (key : Bytes) (ts : Int) : Prop :=
  ∃ t : Time, .register key t ∈ calls ∧ t.unixNano = ts

def Ordered (op : KeyedProcessOperator) : Prop :=
  ∀ key, (op.timers.getAll key).Pairwise (· ≤ ·) ∧ (op.timers.getAll key).Nodup ∧
    ∀ ts ∈ op.timers.getAll key, Time.zero < ts

structure Adds (op : KeyedProcessOperator) (calls : List TimerCall) (after : KeyedProcessOperator) :
    Prop where
  pending :
    ∀ key ts, ts ∈ after.timers.getAll key ↔ ts ∈ op.timers.getAll key ∨ Registers calls key ts
  others : ∀ key, (∀ ts, ¬ Registers calls key ts) → after.timers.getAll key = op.timers.getAll key
  ordered : op.Ordered → after.Ordered
  watermark : after.watermark = op.watermark
  functions : op.SameFunctions after

variable {op middle after : KeyedProcessOperator} {key other : Bytes} {first second :
    List TimerCall}
  {onTimer : KeyedContext → Time → Option KeyedEffect} {sends : List Record}

variable {ts : Int}

@[simp] theorem registers_append :
    Registers (first ++ second) key ts ↔ Registers first key ts ∨ Registers second key ts := by
  simp [Registers, or_and_right, exists_or]

theorem not_registers_nil : ¬ Registers [] key ts := by
  simp [Registers]

@[simp] theorem registers_fire {t : Time} {calls : List TimerCall} :
    Registers (.fire other t :: calls) key ts ↔ Registers calls key ts := by
  simp [Registers]

theorem Adds.refl (op : KeyedProcessOperator) : Adds op [] op :=
  ⟨fun _ _ => (or_iff_left not_registers_nil).symm, fun _ _ => rfl, id, rfl, rfl, rfl⟩

theorem Adds.trans (adds : Adds op first middle) (mem' : Adds middle second after) :
    Adds op (first ++ second) after := by
  refine ⟨fun key ts => ?_, fun key none => ?_, mem'.ordered ∘ adds.ordered,
    mem'.watermark.trans adds.watermark, mem'.functions.1.trans adds.functions.1,
    mem'.functions.2.trans adds.functions.2⟩
  · rw [mem'.pending, adds.pending, registers_append, or_assoc]
  · simp only [registers_append, not_or] at none
    rw [mem'.others key fun ts => (none ts).2, adds.others key fun ts => (none ts).1]

theorem adds_register (op : KeyedProcessOperator) (key : Bytes) (ts : Time) :
    Adds op [.register key ts] { op with timers := registerEventTimeTimer op.timers key ts } := by
  have mem (other : Bytes) (n : Int) :
    Registers [.register key ts] other n ↔ other = key ∧ n = ts.unixNano := by
    simp [Registers, eq_comm]
  refine ⟨fun other n => ?_, fun other none => ?_, fun ordered other => ?_, rfl, rfl, rfl⟩
  · rw [mem, getAll_registerEventTimeTimer]
    split
    · next same =>
      split
      · next old =>
        rw [eq_comm (a := n)]
        exact ⟨.inl, fun new => new.elim id fun is => is.2 ▸ old⟩
      · rw [mem_orderedInsert, or_comm]
        simp [same]
    · next differs => simp [differs]
  · have differs : other ≠ key := fun same => none ts.unixNano ((mem other _).2 ⟨same, rfl⟩)
    rw [getAll_registerEventTimeTimer, if_neg differs]
  · obtain ⟨sorted, nodup, late⟩ := ordered other
    rw [getAll_registerEventTimeTimer]
    split
    · split
      · exact ⟨sorted, nodup, late⟩
      · next new =>
        refine ⟨sorted.orderedInsert _ _, ?_, fun n mem => ?_⟩
        · exact (perm_orderedInsert _ _ _).nodup_iff.2 (nodup_cons.2 ⟨new, nodup⟩)
        · rcases (mem_orderedInsert _).1 mem with rfl | old
          · exact ts.zero_lt_unixNano
          · exact late n old
    · exact ⟨sorted, nodup, late⟩

theorem adds_apply (op : KeyedProcessOperator) (key : Bytes) (effect : KeyedEffect) :
    Adds op (registrations key (some effect)) (op.apply key effect) := by
  have fold (timers : List Time) (op : KeyedProcessOperator) : Adds op (timers.map (.register key))
      { op with
        timers := timers.foldl (fun all ts => registerEventTimeTimer all key ts) op.timers } := by
    induction timers generalizing op with
    | nil => exact .refl op
    | cons ts rest ih => exact (adds_register op key ts).trans (ih _)
  obtain ⟨pending, others, ordered, -, -⟩ := fold effect.timers op
  exact ⟨pending, others, ordered, rfl, rfl, rfl⟩

/-! ## One round -/

@[simp] theorem fired_append : fired key (first ++ second) = fired key first ++ fired key second :=
  filterMap_append

theorem fired_registrations (effect : Option KeyedEffect) :
    fired other (registrations key effect) = [] := by
  cases effect with
  | none => rfl
  | some effect => simp [fired, registrations, filterMap_map]

theorem registers_registrations {effect : Option KeyedEffect}
    (registers : Registers (registrations key effect) other ts) : other = key := by
  obtain ⟨t, mem, -⟩ := registers
  cases effect with
  | none => cases mem
  | some effect =>
    obtain ⟨_, -, same⟩ := List.mem_map.1 mem
    exact (TimerCall.register.inj same).1.symm

theorem adds_due {due : List Int} (loop : forEach
      (fun ts op => op.call key (onTimer (op.contextFor key op.watermark) ts)) due op =
        .send sends after) :
    Adds op (dueCalls onTimer key due op) after ∧
    (∀ other, fired other (dueCalls onTimer key due op) = if other = key then due else []) ∧
    ∀ other ts, Registers (dueCalls onTimer key due op) other ts → other = key := by
  induction due generalizing op sends with
  | nil =>
    obtain ⟨-, same⟩ := Reaction.mk.inj loop
    obtain rfl := Option.some.inj same
    exact ⟨.refl op,
      fun other => by simp [dueCalls, fired], fun _ _ never => (not_registers_nil never).elim⟩
  | cons ts rest ih =>
    obtain ⟨sent, middle, later, called, goes, -⟩ := of_andThen_eq_send loop
    change op.call key (onTimer (op.contextFor key op.watermark) ts) = _ at called
    cases effect : onTimer (op.contextFor key op.watermark) ts with rw [effect] at called
    | none =>
      cases called
    | some made =>
      obtain ⟨-, same⟩ := Reaction.mk.inj called
      obtain rfl := Option.some.inj same
      obtain ⟨adds, fires, own⟩ := ih goes
      simp only [dueCalls, effect, cons_append]
      have all := (adds_apply op key made).trans adds
      refine ⟨⟨fun other n => ?_, fun other none => all.others other fun n => ?_, all.ordered,
        all.watermark,
        all.functions⟩, fun other => ?_, fun other n registers => ?_⟩
      · rw [registers_fire]
        exact all.pending other n
      · simpa using none n
      · have rest := fires other
        change fired other ([_] ++ (_ ++ _)) = _
        rw [fired_append, fired_append, fired_registrations, rest]
        by_cases same : other = key
        · simp [same, fired]
        · simp [same, fired, Ne.symm same]
      · rcases registers_append.1 (registers_fire.1 registers) with here | there
        · exact registers_registrations here
        · exact own other n there

/-- What `fireTimers` does when it has passed some keys. -/
structure Fires (done : List Bytes) (op : KeyedProcessOperator) (calls : List TimerCall)
    (after : KeyedProcessOperator) : Prop where
  firings : ∀ key, fired key calls = if key ∈ done then op.due key else []
  pending : ∀ key ts, ts ∈ after.timers.getAll key ↔
    (ts ∈ op.timers.getAll key ∧ (key ∈ done → op.watermark < ts)) ∨ Registers calls key ts
  own : ∀ key ts, Registers calls key ts → key ∈ done
  others : ∀ key, key ∉ done → after.timers.getAll key = op.timers.getAll key
  ordered : op.Ordered → after.Ordered
  watermark : after.watermark = op.watermark
  functions : op.SameFunctions after

theorem getAll_take (op : KeyedProcessOperator) (key other : Bytes) :
    (op.take key).timers.getAll other = if other = key then
      (op.timers.getAll key).filter fun ts => !decide (ts ≤ op.watermark) else
        op.timers.getAll other := by
  simp only [take]
  split
  · next none =>
    rw [ListState.getAll_clear, List.isEmpty_iff.1 none]
  · by_cases same : other = key
    · subst same
      simp [ListState.getAll]
    · simp [ListState.getAll, same, AList.lookup_insert_ne same]

theorem fires_key (fire : fireKey onTimer key op = .send sends after) :
    Fires [key] op (dueCalls onTimer key (op.due key) (op.take key)) after := by
  have unfolded : fireKey onTimer key op = if (op.due key).isEmpty then .send [] op
      else .forEach (fun ts op => op.call key (onTimer (op.contextFor key op.watermark) ts))
        (op.due key)
        (op.take key) := by
    simp only [fireKey, partition_eq_filter_filter, due, take]
    rfl
  rw [unfolded] at fire
  split at fire
  · next none =>
    obtain ⟨-, same⟩ := Reaction.mk.inj fire
    obtain rfl := Option.some.inj same
    have nothing : op.due key = [] := List.isEmpty_iff.1 none
    rw [nothing, dueCalls]
    refine ⟨fun other => ?_, fun other ts => ?_, fun _ _ never => (not_registers_nil never).elim,
      fun _ _ => rfl, id, rfl, rfl, rfl⟩
    · split
      · next mem =>
        rw [mem_singleton.1 mem, nothing]
        rfl
      · rfl
    · rw [or_iff_left not_registers_nil]
      refine ⟨fun mem => ⟨mem, fun here => ?_⟩, And.left⟩
      obtain rfl := mem_singleton.1 here
      have late := filter_eq_nil_iff.1 nothing ts mem
      exact Int.not_le.1 (by simpa using late)
  · obtain ⟨adds, fires, own⟩ := adds_due fire
    refine ⟨fun other => ?_, fun other ts => ?_, fun other ts registers => ?_,
      fun other outside => ?_,
      fun ordered => adds.ordered fun other => ?_, adds.watermark, adds.functions⟩
    · rw [fires other]
      by_cases same : other = key <;> simp [same]
    · rw [adds.pending, getAll_take]
      by_cases same : other = key <;> simp [same]
    · exact mem_singleton.2 (own other ts registers)
    · have differs : other ≠ key := fun same => outside (mem_singleton.2 same)
      rw [adds.others other fun ts registers => differs (own other ts registers), getAll_take,
        if_neg differs]
    · obtain ⟨sorted, nodup, late⟩ := ordered other
      rw [getAll_take]
      split
      · next same =>
        subst same
        exact ⟨sorted.filter _, nodup.filter _, fun ts mem => late ts (mem_of_mem_filter mem)⟩
      · exact ⟨sorted, nodup, late⟩

theorem fires_keys {keys : List Bytes} (nodup : keys.Nodup)
    (loop : forEach (fireKey onTimer) keys op = .send sends after) :
    Fires keys op (keysCalls onTimer keys op) after := by
  induction keys generalizing op sends with
  | nil =>
    obtain ⟨-, same⟩ := Reaction.mk.inj loop
    obtain rfl := Option.some.inj same
    exact ⟨fun _ => rfl, fun _ _ => by simp [keysCalls, not_registers_nil],
      fun _ _ never => (not_registers_nil never).elim, fun _ _ => rfl, id, rfl, rfl, rfl⟩
  | cons key rest ih =>
    obtain ⟨outside, nodup⟩ := nodup_cons.1 nodup
    obtain ⟨sent, middle, later, here, goes, -⟩ := of_andThen_eq_send loop
    have head := fires_key here
    have tail := ih nodup goes
    have next : (fireKey onTimer key op).next = some middle := by rw [here]; rfl
    simp only [keysCalls, next]
    refine ⟨fun other => ?_, fun other ts => ?_, fun other ts registers => ?_,
      fun other absent => ?_,
      tail.ordered ∘ head.ordered, tail.watermark.trans head.watermark,
      tail.functions.1.trans head.functions.1, tail.functions.2.trans head.functions.2⟩
    · rw [fired_append, head.firings, tail.firings]
      by_cases same : other = key
      · simp [same, outside]
      · have kept : middle.due other = op.due other := by
          rw [due, due, head.others other (by simpa using same), head.watermark]
        simp [same, kept]
    · rw [tail.pending, registers_append, head.watermark]
      by_cases same : other = key
      · subst same
        simp [outside, head.pending, or_assoc]
      · have none : ¬ Registers (dueCalls onTimer key (op.due key) (op.take key)) other ts :=
          fun registers => same (mem_singleton.1 (head.own other ts registers))
        rw [head.others other (by simpa using same)]
        simp [same, none]
    · rcases registers_append.1 registers with first | second
      · exact mem_cons.2 (.inl (mem_singleton.1 (head.own other ts first)))
      · exact mem_cons_of_mem _ (tail.own other ts second)
    · obtain ⟨differs, absent⟩ := not_or.1 (mt mem_cons.2 absent)
      rw [tail.others other absent, head.others other (by simpa using differs)]

def firing (r : Record) : Bool := !r.isBarrier && r.isWatermark

/-- What one round of `Process` does with the timers. -/
structure Passes (op : KeyedProcessOperator) (r : Record) (calls : List TimerCall)
    (after : KeyedProcessOperator) : Prop where
  firings : ∀ key, fired key calls =
    if firing r then (op.timers.getAll key).filter fun ts => decide (ts ≤ after.watermark) else []
  pending : ∀ key ts, ts ∈ after.timers.getAll key ↔
    (ts ∈ op.timers.getAll key ∧ ¬ (firing r = true ∧ ts ≤ after.watermark)) ∨
      Registers calls key ts
  ordered : after.Ordered
  functions : op.SameFunctions after

theorem fires_all (configured : op.onTimer = some onTimer) (ordered : op.Ordered) {choice : Nat}
    (fire : op.fireTimers choice = .send sends after) :
      ∃ keys, Fires keys op (op.fireCalls choice) after ∧
      ∀ key, key ∉ keys → op.due key = [] := by
  simp only [fireTimers, configured] at fire
  simp only [fireCalls, configured]
  split at fire
  · next zero =>
    obtain ⟨-, same⟩ := Reaction.mk.inj fire
    obtain rfl := Option.some.inj same
    refine ⟨[],
      ⟨fun _ => by simp [zero, fired], fun key ts => ?_, fun _ _ never => ?_, fun _ _ => rfl, id,
      rfl, rfl, rfl⟩, fun key _ => ?_⟩
    · simp [zero, not_registers_nil]
    · simp [zero, not_registers_nil] at never
    · have start : op.watermark = Time.zero := by simpa [Time.isZero] using zero
      refine filter_eq_nil_iff.2 fun ts mem => ?_
      rw [start, decide_eq_true_eq]
      exact Int.not_le.2 ((ordered key).2.2 ts mem)
  · next nonzero =>
    rw [if_neg nonzero]
    have perm := arrange_perm choice op.timers.keys
    refine ⟨_, fires_keys (perm.nodup_iff.2 op.timers.keys_nodup) fire, fun key absent => ?_⟩
    rw [due, ListState.getAll_of_not_mem fun mem => absent (perm.mem_iff.2 mem)]
    rfl

theorem passes_of_process (configured : op.onTimer = some onTimer) (ordered : op.Ordered)
    {choice : Nat} {r : Record} (reacts : op.process choice r = .send sends after) : Passes op r
    (op.calls choice r) after := by
  simp only [process] at reacts
  simp only [calls]
  split at reacts
  · next barrier =>
    obtain ⟨-, same⟩ := Reaction.mk.inj reacts
    obtain rfl := Option.some.inj same
    rw [if_pos barrier]
    have quiet : firing r = false := by simp [firing, barrier]
    exact ⟨fun _ =>
      by simp [quiet, fired], fun _ _ => by simp [quiet, not_registers_nil], ordered, rfl, rfl⟩
  · next plain =>
    rw [if_neg plain]
    split at reacts
    · next watermark =>
      obtain ⟨sent, middle, later, fire, last, -⟩ := of_andThen_eq_send reacts
      obtain ⟨-, same⟩ := Reaction.mk.inj last
      obtain rfl := Option.some.inj same
      have here : firing r = true := by simp [firing, plain, watermark]
      rw [if_pos watermark]
      have start : ({ op with watermark := max op.watermark r.timestamp } :
        KeyedProcessOperator).Ordered := ordered
      have set : ({ op with watermark := max op.watermark r.timestamp } :
        KeyedProcessOperator).onTimer = some onTimer := configured
      obtain ⟨keys, fires, outside⟩ := fires_all set start fire
      refine ⟨fun key => ?_, fun key ts => ?_, fires.ordered start, fires.functions⟩
      · rw [fires.firings, if_pos here, fires.watermark]
        split
        · rfl
        · next absent => exact (outside key absent).symm
      · rw [fires.pending, fires.watermark, here]
        by_cases mem : key ∈ keys
        · simp [mem]
        · have late (old : ts ∈ op.timers.getAll key) : ¬ ts ≤ max op.watermark r.timestamp := by
            simpa using filter_eq_nil_iff.1 (outside key mem) ts old
          refine or_congr_left (and_congr_right fun old => ?_)
          exact iff_of_true (fun inside => absurd inside mem) fun due => late old due.2
    · next data =>
      rw [if_neg data]
      have quiet : firing r = false := by simp [firing, data]
      cases effect : op.fn (op.contextFor r.key r.timestamp) r with rw [effect] at reacts
      | none =>
        cases reacts
      | some made =>
        obtain ⟨-, same⟩ := Reaction.mk.inj reacts
        obtain rfl := Option.some.inj same
        have adds := adds_apply op r.key made
        refine ⟨fun key => ?_, fun key ts => ?_, adds.ordered ordered, adds.functions⟩
        · rw [fired_registrations, quiet]
          rfl
        · rw [adds.pending, quiet]
          simp

/-! ## Whole runs -/

structure Round where
  record : Record
  watermark : Time
  calls : List TimerCall

def Round.Reaches (round : Round) (ts : Time) : Prop :=
  firing round.record = true ∧ ts ≤ round.watermark

/-- The rounds of `Process` on some records, with any listing of the keys. -/
inductive Runs : KeyedProcessOperator → List Round → KeyedProcessOperator → Prop
  | nil (op : KeyedProcessOperator) : Runs op [] op
  | cons {op next after : KeyedProcessOperator} {r : Record} {sends : List Record}
      {rest : List Round}
      (choice : Nat) (reacts : op.process choice r = .send sends next)
        (later : Runs next rest after) :
      Runs op (⟨r, next.watermark, op.calls choice r⟩ :: rest) after

variable {front rounds rest : List Round}

def Fit (rounds : List Round) : Prop :=
  ∀ round ∈ rounds, ∀ key ts, .register key ts ∈ round.calls → ts.unixNano = ts

def Timed (op : KeyedProcessOperator) : Prop := (∃ onTimer, op.onTimer = some onTimer) ∧ op.Ordered

theorem Timed.next {next : KeyedProcessOperator} {choice : Nat} {r : Record} {sends : List Record}
    (timed : op.Timed) (reacts : op.process choice r = .send sends next) :
    Passes op r (op.calls choice r) next ∧ next.Timed := by
  obtain ⟨⟨onTimer, configured⟩, ordered⟩ := timed
  have passes := passes_of_process configured ordered reacts
  exact ⟨passes, ⟨onTimer, passes.functions.2.trans configured⟩, passes.ordered⟩

theorem Runs.uncons {round : Round} (timed : op.Timed) (runs : Runs op (round :: rest) after) :
    ∃ next, Passes op round.record round.calls next ∧ next.watermark = round.watermark ∧
      next.Timed ∧
      Runs next rest after := by
  cases runs with
  | cons choice reacts later =>
    obtain ⟨passes, still⟩ := timed.next reacts
    exact ⟨_, passes, rfl, still, later⟩

theorem Runs.split (timed : op.Timed) (runs : Runs op (front ++ rest) after) :
    ∃ middle, Runs op front middle ∧ middle.Timed ∧ Runs middle rest after := by
  induction front generalizing op with
  | nil => exact ⟨op, .nil op, timed, runs⟩
  | cons round front ih =>
    cases runs with
    | cons choice reacts later =>
      obtain ⟨middle, first, still, last⟩ := ih (timed.next reacts).2 later
      exact ⟨middle, .cons choice reacts first, still, last⟩

theorem Passes.mem_fired {round : Round} {next : KeyedProcessOperator}
    (passes : Passes op round.record round.calls next) (same : next.watermark = round.watermark) :
    ts ∈ fired key round.calls ↔ ts ∈ op.timers.getAll key ∧ round.Reaches ts := by
  rw [passes.firings, same, Round.Reaches]
  split
  · next here => simp [here]
  · next quiet => simp [quiet]

theorem Runs.waits (timed : op.Timed) (runs : Runs op rounds after)
    (pending : ts ∈ op.timers.getAll key) (early : ∀ round ∈ rounds, ¬ round.Reaches ts) :
    ts ∈ after.timers.getAll key ∧ ∀ round ∈ rounds, ts ∉ fired key round.calls := by
  induction rounds generalizing op with
  | nil =>
    cases runs
    exact ⟨pending, by simp⟩
  | cons round rest ih =>
    obtain ⟨next, passes, same, still, later⟩ := runs.uncons timed
    have notYet := early round mem_cons_self
    have kept : ts ∈ next.timers.getAll key :=
      (passes.pending key ts).2 (.inl ⟨pending, by rw [same]; exact notYet⟩)
    obtain ⟨last, silent⟩ := ih still later kept fun round mem => early round (.tail _ mem)
    refine ⟨last, forall_mem_cons.2 ⟨fun fires => ?_, silent⟩⟩
    exact notYet ((passes.mem_fired same).1 fires).2

theorem Runs.origin (timed : op.Timed) (fit : Fit rounds) (runs : Runs op rounds after)
    (pending : ts ∈ after.timers.getAll key) :
    (ts ∈ op.timers.getAll key ∧ ∀ round ∈ rounds, ¬ round.Reaches ts ∧
      ts ∉ fired key round.calls) ∨
    ∃ front here middle, rounds = front ++ here :: middle ∧ .register key ts ∈ here.calls ∧
      ∀ round ∈ middle, ¬ round.Reaches ts ∧ ts ∉ fired key round.calls := by
  induction rounds generalizing op with
  | nil =>
    cases runs
    exact .inl ⟨pending, by simp⟩
  | cons round rest ih =>
    obtain ⟨next, passes, same, still, later⟩ := runs.uncons timed
    rcases ih still (fun round mem => fit round (.tail _ mem)) later with
      ⟨mem, silent⟩ | ⟨front, here, middle, rfl, found⟩
    · rcases (passes.pending key ts).1 mem with ⟨old, notYet⟩ | ⟨t, registers, rfl⟩
      · rw [same] at notYet
        refine .inl ⟨old, forall_mem_cons.2 ⟨⟨notYet, fun fires => ?_⟩, silent⟩⟩
        exact notYet ((passes.mem_fired same).1 fires).2
      · have whole := fit round mem_cons_self key t registers
        rw [whole] at silent ⊢
        exact .inr ⟨[], round, rest, rfl, registers, silent⟩
    · exact .inr ⟨round :: front, here, middle, rfl, found⟩

/-- With an `OnTimer` function, in every run: a registered timer fires once in the first later round
whose watermark reaches it, however often it is registered, and in no round before; every timer that
fires is due and was registered since it last fired; and the timers of a key fire in ascending
order. -/
theorem timers_fire_once (op : KeyedProcessOperator)
    (onTimer : KeyedContext → Time → Option KeyedEffect)
    (configured : op.onTimer = some onTimer) (fresh : op.timers = ∅) (fit : Fit rounds)
    (runs : Runs op rounds after) :
    (∀ front here middle last rest key ts, rounds = front ++ here :: (middle ++ last :: rest) →
      .register key ts ∈ here.calls → (∀ round ∈ middle, ¬ round.Reaches ts) → last.Reaches ts →
      (∀ round ∈ middle, ts ∉ fired key round.calls) ∧ (fired key last.calls).count ts = 1) ∧
    (∀ front last rest key ts, rounds = front ++ last :: rest → ts ∈ fired key last.calls →
      last.Reaches ts ∧ ∃ before here middle, front = before ++ here :: middle ∧
        .register key ts ∈ here.calls ∧ ∀ round ∈ middle, ¬ round.Reaches ts ∧
          ts ∉ fired key round.calls) ∧
    ∀ round ∈ rounds, ∀ key, (fired key round.calls).Pairwise (· < ·) := by
  have none (key : Bytes) : op.timers.getAll key = [] := by rw [fresh]; rfl
  have timed : op.Timed := ⟨⟨onTimer, configured⟩, fun key => by simp [none key]⟩
  refine ⟨?_, ?_, ?_⟩
  · rintro front here middle last rest key ts rfl registers early reaches
    obtain ⟨p, -, timed, runs⟩ := runs.split timed
    obtain ⟨q, passes, -, timed, runs⟩ := runs.uncons timed
    have added : ts ∈ q.timers.getAll key :=
      (passes.pending key ts).2 (.inr ⟨ts, registers, fit here (by simp) key ts registers⟩)
    obtain ⟨m, waiting, still, runs⟩ := runs.split timed
    obtain ⟨pending, silent⟩ := waiting.waits timed added early
    obtain ⟨t, passes, same, -, -⟩ := runs.uncons still
    refine ⟨silent, count_eq_one_of_mem ?_ ((passes.mem_fired same).2 ⟨pending, reaches⟩)⟩
    rw [passes.firings, if_pos reaches.1]
    exact (still.2 key).2.1.filter _
  · rintro front last rest key ts rfl fires
    obtain ⟨p, before, still, runs⟩ := runs.split timed
    obtain ⟨q, passes, same, -, -⟩ := runs.uncons still
    obtain ⟨pending, reaches⟩ := (passes.mem_fired same).1 fires
    refine ⟨reaches,
      (before.origin timed (fun round mem => fit round (by simp [mem])) pending).resolve_left ?_⟩
    rintro ⟨old, -⟩
    rw [none key] at old
    cases old
  · intro round mem key
    obtain ⟨front, rest, rfl⟩ := append_of_mem mem
    obtain ⟨p, -, still, runs⟩ := runs.split timed
    obtain ⟨q, passes, same, -, -⟩ := runs.uncons still
    obtain ⟨sorted, nodup, -⟩ := still.2 key
    rw [passes.firings]
    split
    · exact (sorted.and nodup).filter _ |>.imp fun both => lt_of_le_of_ne both.1 both.2
    · exact .nil

def reminder : KeyedProcessOperator where
  fn context r := some ⟨context.values, [r.timestamp], []⟩
  onTimer := some fun context _ => some ⟨context.values, [], []⟩

/-- A record registers a timer, and the watermark behind it fires it. -/
theorem reminder_fires_once : ∃ rounds after, Runs reminder rounds after ∧
    rounds.map (fun round => fired [1] round.calls) = [[], [5]] ∧
    ∀ round ∈ rounds, ∀ key, (fired key round.calls).Pairwise (· < ·) := by
  let held := reminder.apply [1] ⟨∅, [5], []⟩
  let onTimer : KeyedContext → Time → Option KeyedEffect :=
    fun context _ => some ⟨context.values, [], []⟩
  have one : arrange 0 held.timers.keys = [[1]] := arrange_singleton 0 [1]
  have waiting : held.process 0 (Record.newWatermark 10) =
      .send [Record.newWatermark 10] { held with
        watermark := 10, timers := ∅, state := held.state } := by
    have fires : fireTimers { held with watermark := 10 } 0 =
        .forEach (fireKey onTimer) [[1]] { held with watermark := 10 } := by
      rw [← one]
      rfl
    change andThen (fireTimers { held with watermark := 10 } 0) _ = _
    rw [fires]
    rfl
  have made : held.calls 0 (Record.newWatermark 10) = [.fire [1] 5] := by
    have keys : held.calls 0 (Record.newWatermark 10) =
        keysCalls onTimer [[1]] { held with watermark := 10 } := by
      rw [← one]
      rfl
    rw [keys]
    rfl
  have second := Runs.cons 0 waiting (.nil _)
  rw [made] at second
  have runs : Runs reminder [⟨{ key := [1], timestamp := 5 }, Time.zero, [.register [1] 5]⟩,
      ⟨Record.newWatermark 10, 10, [.fire [1] 5]⟩] _ := .cons 0 rfl second
  exact ⟨_, _, runs, rfl,
    (timers_fire_once reminder onTimer rfl rfl (by simp [Fit]; decide) runs).2.2⟩

end Weibo.KeyedProcessOperator
