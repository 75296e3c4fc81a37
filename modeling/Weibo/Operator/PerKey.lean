import Weibo.Operator.Stateful

/-!
# What an operator does for one key

For each key of `Reduce` without windows and of `KeyedProcess` there is a part of the operator that
only the records of the key and the markers act on. Two operators that are `Alike` for a key make
the same of them, whatever other keys they hold.
-/

namespace Weibo

open List AList Bool Option

open ListState (getAll getAll_clear)
open Reaction (meets_forEach meets_send of_map_eq_send rel_send)

namespace Record

def concerns (key : Bytes) (r : Record) : Bool := r.isMarker || decide (r.key = key)

def Windowless (r : Record) : Prop :=
  r.header "window_start" = none ∧ r.header "window_end" = none

theorem filter_concerns_nil {key other : Bytes} (differs : other ≠ key) {records : List Record}
    (all : ∀ r ∈ records, r.isMarker = false ∧ r.key = other) : records.filter
    (concerns key) = [] := by
  refine filter_eq_nil_iff.2 fun r mem => ?_
  obtain ⟨data, same⟩ := all r mem
  simp [concerns, data, same, differs]

theorem filter_concerns_eq {key : Bytes} {records : List Record}
    (all : ∀ r ∈ records, r.isMarker = false ∧ r.key = key) :
    records.filter (concerns key) = records :=
  filter_eq_self.2 fun r mem => by simp [concerns, (all r mem).2]

end Record

open Record (concerns)

/-! ## Reduce without windows -/

namespace ReduceOperator

def Alike (key : Bytes) (op twin : ReduceOperator) : Prop :=
  op.fn = twin.fn ∧ op.values.lookup key = twin.values.lookup key

def emitted (record : Record) (value : Bytes) : Record :=
  { key := record.key
    value := value
    timestamp := record.timestamp
    offset := record.offset
    headers := record.headers }

variable [TimeText]

theorem process_windowless (op : ReduceOperator) {record : Record} (data : record.isMarker = false)
    (plain : record.Windowless) :
    op.process record =
      match op.fn (op.values.lookup record.key) record with
      | none => .fail
      | some newAccum => .send [emitted record (newAccum.getD [])]
          { op with values := op.values.insert record.key (newAccum.getD []) } := by
  simp only [Record.isMarker, or_eq_false_iff] at data
  have sk : stateKey record = record.key := by simp [stateKey, plain.1]
  simp only [process, data.1, data.2, false_eq_true, if_false, advanceWindowFrontier,
    plain.2, bind_none]
  rw [sk]
  rfl

variable {key : Bytes} {op twin after later : ReduceOperator} {record : Record}
  {sends sent : List Record}

theorem process_eq_send (data : record.isMarker = false) (plain : record.Windowless)
    (reacts : op.process record = .send sends after) :
    ∃ newAccum, op.fn (op.values.lookup record.key) record = some newAccum ∧
      sends = [emitted record (newAccum.getD [])] ∧
      after = { op with values := op.values.insert record.key (newAccum.getD []) } := by
  rw [process_windowless op data plain] at reacts
  generalize op.fn (op.values.lookup record.key) record = reduced at reacts
  cases reduced with
  | none => cases reacts
  | some newAccum =>
    cases reacts
    exact ⟨newAccum, rfl, rfl, rfl⟩

theorem process_other (data : record.isMarker = false) (plain : record.Windowless)
    (differs : record.key ≠ key) (reacts : op.process record = .send sends after) :
    sends.filter (concerns key) = [] ∧ Alike key after op := by
  obtain ⟨newAccum, -, rfl, rfl⟩ := process_eq_send data plain reacts
  refine ⟨Record.filter_concerns_nil differs fun r mem => ?_, rfl,
    lookup_insert_ne differs.symm⟩
  rw [mem_singleton.1 mem]
  exact ⟨rfl, rfl⟩

theorem Alike.process (alike : Alike record.key op twin) (data : record.isMarker = false)
    (plain : record.Windowless) (reacts : op.process record = .send sends after) (answers :
    twin.process record = .send sent later) : sends = sent ∧ Alike record.key after later := by
  obtain ⟨newAccum, reduced, rfl, rfl⟩ := process_eq_send data plain reacts
  obtain ⟨mem', other, rfl, rfl⟩ := process_eq_send data plain answers
  rw [alike.1, alike.2, other] at reduced
  cases reduced
  exact ⟨rfl, alike.1, by simp⟩

end ReduceOperator

/-! ## Keyed processing -/

namespace KeyedProcessOperator

def OwnKey {ι : Type} (fn : KeyedContext → ι → Option KeyedEffect) : Prop :=
  ∀ context input effect, fn context input = some effect →
    ∀ r ∈ effect.records, r.key = context.key

def Emits {ι : Type} (holds : Record → Prop) (fn : KeyedContext → ι → Option KeyedEffect) : Prop :=
  ∀ context input effect, fn context input = some effect → ∀ r ∈ effect.records, holds r

def EmitsOnly (holds : Record → Prop) (op : KeyedProcessOperator) : Prop :=
  Emits holds op.fn ∧ ∀ onTimer, op.onTimer = some onTimer → Emits holds onTimer

/-- Both functions never fail, return no markers and emit only records with the key they were
called for. -/
def KeepsToKey (op : KeyedProcessOperator) : Prop :=
  op.Reliable ∧ OwnKey op.fn ∧ ∀ onTimer, op.onTimer = some onTimer → OwnKey onTimer

structure Alike (key : Bytes) (op twin : KeyedProcessOperator) : Prop where
  functions : op.SameFunctions twin
  watermark : op.watermark = twin.watermark
  state : op.state.lookup key = twin.state.lookup key
  timers : op.timers.getAll key = twin.timers.getAll key

variable {key other : Bytes} {op twin later : KeyedProcessOperator}

@[refl]
theorem Alike.refl (key : Bytes) (op : KeyedProcessOperator) : Alike key op op :=
  ⟨⟨rfl, rfl⟩, rfl, rfl, rfl⟩

theorem Alike.symm (alike : Alike key op twin) : Alike key twin op :=
  ⟨⟨alike.functions.1.symm, alike.functions.2.symm⟩, alike.watermark.symm, alike.state.symm,
    alike.timers.symm⟩

theorem Alike.trans (alike : Alike key op twin)
    (mem' : Alike key twin later) : Alike key op later :=
  ⟨⟨mem'.functions.1.trans alike.functions.1, mem'.functions.2.trans alike.functions.2⟩,
    alike.watermark.trans mem'.watermark, alike.state.trans mem'.state,
    alike.timers.trans mem'.timers⟩

/-! ### One call of a function -/

theorem getAll_registerEventTimeTimer (timers : ListState Bytes Int) (key other : Bytes)
    (ts : Time) :
    (registerEventTimeTimer timers other ts).getAll key = if key = other then
        if ts.unixNano ∈ timers.getAll key then timers.getAll key
        else (timers.getAll key).orderedInsert (· ≤ ·) ts.unixNano else timers.getAll key := by
  simp only [registerEventTimeTimer]
  by_cases same : key = other
  · subst same
    split
    · simp [*]
    · simp [*, getAll]
  · rw [if_neg same]
    split
    · rfl
    · simp [getAll, lookup_insert_ne same]

theorem mem_keys_registerEventTimeTimer {timers : ListState Bytes Int} {ts : Time}
    (mem : key ∈ (registerEventTimeTimer timers other ts).keys) :
    key = other ∨ key ∈ timers.keys := by
  simp only [registerEventTimeTimer] at mem
  split at mem
  · exact .inr mem
  · rw [← AList.mem_keys, mem_insert] at mem
    exact mem

theorem alike_apply_ne (op : KeyedProcessOperator) (effect : KeyedEffect) (differs : key ≠ other) :
    Alike key (op.apply other effect) op := by
  refine ⟨⟨rfl, rfl⟩, rfl, lookup_insert_ne differs, ?_⟩
  simp only [apply]
  generalize op.timers = timers
  induction effect.timers generalizing timers with
  | nil => rfl
  | cons ts rest ih =>
    rw [foldl_cons, ih, getAll_registerEventTimeTimer, if_neg differs]

theorem Alike.apply (alike : Alike key op twin) (effect : KeyedEffect) :
    Alike key (op.apply key effect) (twin.apply key effect) := by
  refine ⟨alike.functions, alike.watermark, ?_, ?_⟩
  · simp [KeyedProcessOperator.apply]
  · have timers := alike.timers
    simp only [KeyedProcessOperator.apply]
    generalize op.timers = first at timers
    generalize twin.timers = second at timers
    induction effect.timers generalizing first second with
    | nil => exact timers
    | cons ts rest ih =>
      refine ih _ _ ?_
      rw [getAll_registerEventTimeTimer, getAll_registerEventTimeTimer, timers]

theorem mem_keys_apply {effect : KeyedEffect} (mem : key ∈ (op.apply other effect).timers.keys) :
    key = other ∨ key ∈ op.timers.keys := by
  simp only [apply] at mem
  generalize op.timers = timers at mem
  generalize effect.timers = registered at mem
  induction registered generalizing timers with
  | nil => exact .inr mem
  | cons ts rest ih =>
    rcases ih _ mem with same | inside
    · exact .inl same
    · exact mem_keys_registerEventTimeTimer inside

theorem Alike.contextFor (alike : Alike key op twin) (ts : Time) :
    op.contextFor key ts = twin.contextFor key ts := by
  simp only [KeyedProcessOperator.contextFor, alike.watermark, alike.state]

theorem Alike.call (alike : Alike key op twin) (effect : Option KeyedEffect) :
    Reaction.Rel (Alike key) (op.call key effect) (twin.call key effect) := by
  cases effect with
  | none => exact Reaction.rel_fail
  | some effect => exact rel_send _ (alike.apply effect)

/-! ### Timers -/

structure Touches (key : Bytes) (op after : KeyedProcessOperator) : Prop where
  functions : op.SameFunctions after
  others : ∀ other, other ≠ key → Alike other after op
  keys : ∀ other ∈ after.timers.keys, other = key ∨ other ∈ op.timers.keys

variable {holds : Record → Prop}

theorem Touches.call {ι : Type} {fn : KeyedContext → ι → Option KeyedEffect}
    (total : DataOnly fn) (own : OwnKey fn) (emits : Emits holds fn)
      (touches : Touches key op later)
    (ts : Time) (input : ι) : (later.call key (fn (later.contextFor key ts) input)).Meets
      (fun r => r.isMarker = false ∧ r.key = key ∧ holds r) (Touches key op) := by
  obtain ⟨effect, returned, data⟩ := total (later.contextFor key ts) input
  simp only [KeyedProcessOperator.call, returned]
  refine meets_send (fun r mem => ⟨data r mem, own _ _ _ returned r mem,
    emits _ _ _ returned r mem⟩) ⟨touches.functions, fun other differs => ?_, fun other mem => ?_⟩
  · exact (alike_apply_ne later effect differs).trans (touches.others other differs)
  · rcases mem_keys_apply mem with same | inside
    · exact .inl same
    · exact touches.keys other inside

variable {onTimer : KeyedContext → Time → Option KeyedEffect}

theorem fireKey_meets
    (total : DataOnly onTimer) (own : OwnKey onTimer) (emits : Emits holds onTimer) (key : Bytes)
    (op : KeyedProcessOperator) :
    (fireKey onTimer key op).Meets (fun r => r.isMarker = false ∧ r.key = key ∧ holds r)
      (Touches key op) := by
  simp only [fireKey]
  split
  · exact meets_send (by simp) ⟨⟨rfl, rfl⟩, fun other _ => .refl other op, fun _ => .inr⟩
  · refine meets_forEach ⟨⟨rfl, rfl⟩, fun other differs => ⟨⟨rfl, rfl⟩, rfl, rfl, ?_⟩,
      fun other mem => ?_⟩ fun ts _ current touches => touches.call total own emits _ ts
    · split
      · rw [getAll_clear, if_neg differs]
      · simp [getAll, lookup_insert_ne differs]
    · split at mem
      · exact .inr ((ListState.mem_keys_clear _ _ _).1 mem).2
      · rw [← AList.mem_keys, mem_insert] at mem
        exact mem

theorem Alike.fireKey (alike : Alike key op twin)
    (onTimer : KeyedContext → Time → Option KeyedEffect) :
    Reaction.Rel (Alike key) (KeyedProcessOperator.fireKey onTimer key op)
      (KeyedProcessOperator.fireKey onTimer key twin) := by
  simp only [KeyedProcessOperator.fireKey, alike.timers, alike.watermark]
  split
  · exact rel_send [] alike
  · refine Reaction.rel_forEach (fun ts current shadow alike _ => ?_)
      ⟨alike.functions, rfl, alike.state, ?_⟩ (Reaction.along_trivial _ _)
    · rw [alike.contextFor, alike.watermark]
      exact alike.call _
    · split
      · rw [getAll_clear, getAll_clear, if_pos rfl, if_pos rfl]
      · simp [getAll]

theorem forEach_others (total : DataOnly onTimer)
    (own : OwnKey onTimer) (emits : Emits holds onTimer) {keys : List Bytes} (absent : key ∉ keys)
    (op : KeyedProcessOperator) :
      (Reaction.forEach (KeyedProcessOperator.fireKey onTimer) keys op).Meets
      (fun r => concerns key r = false) fun after => Alike key after op := by
  refine meets_forEach (.refl key op) fun other mem current alike => ?_
  have differs : key ≠ other := fun same => absent (same ▸ mem)
  obtain ⟨sends, after, next, touches⟩ := fireKey_meets total own emits other current
  refine ⟨fun r sent => ?_, after, next, (touches.others key differs).trans alike⟩
  obtain ⟨data, same, -⟩ := sends r sent
  simp [concerns, data, same, differs.symm]

theorem forEach_fireKey (total : DataOnly onTimer)
    (own : OwnKey onTimer) (emits : Emits holds onTimer) {keys : List Bytes} (distinct : keys.Nodup)
    {op : KeyedProcessOperator} (listed : key ∈ keys ∨ op.timers.getAll key = []) :
    (Reaction.forEach (KeyedProcessOperator.fireKey onTimer) keys op).sends.filter (concerns key) =
        (KeyedProcessOperator.fireKey onTimer key op).sends ∧
      ∃ after alone,
        (Reaction.forEach (KeyedProcessOperator.fireKey onTimer) keys op).next = some after ∧
        (KeyedProcessOperator.fireKey onTimer key op).next = some alone ∧
          Alike key after alone := by
  induction keys generalizing op with
  | nil =>
    have none : op.timers.getAll key = [] := listed.resolve_left not_mem_nil
    have idle : KeyedProcessOperator.fireKey onTimer key op = .send [] op := by
      simp [KeyedProcessOperator.fireKey, none]
    exact ⟨by rw [idle]; rfl, op, op, rfl, by rw [idle]; rfl, .refl key op⟩
  | cons first rest ih =>
    obtain ⟨absent, distinct⟩ := nodup_cons.1 distinct
    obtain ⟨sends, middle, next, touches⟩ := fireKey_meets total own emits first op
    have unfolds : Reaction.forEach (KeyedProcessOperator.fireKey onTimer) (first :: rest) op =
        (KeyedProcessOperator.fireKey onTimer first op).andThen
          (Reaction.forEach (KeyedProcessOperator.fireKey onTimer) rest) := rfl
    simp only [unfolds, Reaction.andThen, next, filter_append]
    by_cases same : first = key
    · -- This is the key: the others that follow leave it alone.
      subst same
      obtain ⟨silent, after, goes, alike⟩ := forEach_others total own emits absent middle
      refine ⟨?_, after, middle, goes, next, alike⟩
      rw [Record.filter_concerns_eq fun r mem => ⟨(sends r mem).1, (sends r mem).2.1⟩,
        filter_eq_nil_iff.2 fun r mem => by simp [silent r mem], append_nil]
    · have alike := touches.others key (Ne.symm same)
      have still : key ∈ rest ∨ middle.timers.getAll key = [] := by
        rcases listed with mem | none
        · exact .inl ((mem_cons.1 mem).resolve_left (Ne.symm same))
        · exact .inr (alike.timers.trans none)
      obtain ⟨sent, after, alone, goes, fires, last⟩ := ih distinct still
      obtain ⟨equal, pairs⟩ := alike.fireKey onTimer
      refine ⟨?_, after, ?_⟩
      · rw [Record.filter_concerns_nil same fun r mem => ⟨(sends r mem).1, (sends r mem).2.1⟩,
          nil_append, sent, equal]
      · rw [fires] at pairs
        generalize (KeyedProcessOperator.fireKey onTimer key op).next = answer at pairs
        cases pairs with
        | some ends => exact ⟨_, goes, rfl, last.trans ends⟩

/-- What `fireTimers` does for one key. -/
def fireTimersOf (key : Bytes) (op : KeyedProcessOperator) : Reaction KeyedProcessOperator Record :=
  match op.onTimer with
  | none => .send [] op
  | some onTimer => if op.watermark.isZero then .send [] op else fireKey onTimer key op

theorem fireTimers_of (op : KeyedProcessOperator) (keeps : op.KeepsToKey) (choice : Nat)
    (key : Bytes) :
    (op.fireTimers choice).sends.filter (concerns key) = (op.fireTimersOf key).sends ∧
      ∃ after alone, (op.fireTimers choice).next = some after ∧
        (op.fireTimersOf key).next = some alone ∧ Alike key after alone := by
  simp only [fireTimers, fireTimersOf]
  cases configured : op.onTimer with
  | none => exact ⟨rfl, op, op, rfl, rfl, .refl key op⟩
  | some onTimer =>
    dsimp only
    split
    · exact ⟨rfl, op, op, rfl, rfl, .refl key op⟩
    · have listing := arrange_perm choice op.timers.keys
      have emits : Emits (fun _ => True) onTimer := fun _ _ _ _ _ _ => trivial
      refine forEach_fireKey (keeps.1.2 onTimer configured) (keeps.2.2 onTimer configured) emits
        (listing.nodup_iff.2 op.timers.keys_nodup) ?_
      by_cases mem : key ∈ op.timers.keys
      · exact .inl (listing.mem_iff.2 mem)
      · exact .inr (ListState.getAll_of_not_mem mem)

theorem Alike.fireTimersOf (alike : Alike key op twin) :
    Reaction.Rel (Alike key) (op.fireTimersOf key) (twin.fireTimersOf key) := by
  simp only [KeyedProcessOperator.fireTimersOf, alike.functions.2, alike.watermark]
  split
  · exact rel_send [] alike
  · split
    · exact rel_send [] alike
    · exact alike.fireKey _

theorem fireTimers_keeps {keys : Bytes → Prop} (keeps : op.KeepsToKey)
    (emits : op.EmitsOnly holds) (inside : ∀ key ∈ op.timers.keys, keys key) (choice : Nat) :
    (op.fireTimers choice).Meets (fun r => r.isMarker = false ∧ keys r.key ∧ holds r) fun after =>
      op.SameFunctions after ∧ ∀ key ∈ after.timers.keys, keys key := by
  simp only [fireTimers]
  cases configured : op.onTimer with
  | none => exact meets_send (by simp) ⟨⟨rfl, configured.symm ▸ rfl⟩, inside⟩
  | some onTimer =>
    dsimp only
    split
    · exact meets_send (by simp) ⟨⟨rfl, configured.symm ▸ rfl⟩, inside⟩
    · refine meets_forEach ⟨⟨rfl, rfl⟩, inside⟩ fun key mem current kept => ?_
      have listed := inside key ((arrange_perm choice op.timers.keys).mem_iff.1 mem)
      obtain ⟨sends, after, next, touches⟩ := fireKey_meets (keeps.1.2 onTimer configured)
        (keeps.2.2 onTimer configured) (emits.2 onTimer configured) key current
      refine ⟨fun r sent => ?_, after, next, ⟨touches.functions.1.trans kept.1.1,
        touches.functions.2.trans kept.1.2⟩, fun other given => ?_⟩
      · obtain ⟨data, same, emitted⟩ := sends r sent
        exact ⟨data, same ▸ listed, emitted⟩
      · rcases touches.keys other given with same | before
        · exact same ▸ listed
        · exact kept.2 other before

/-! ### One record -/

variable {r : Record} {choice order : Nat} {sends sent : List Record} {after : KeyedProcessOperator}

theorem process_of_data (op : KeyedProcessOperator) (choice : Nat) (data : r.isMarker = false) :
    op.process choice r = op.call r.key (op.fn (op.contextFor r.key r.timestamp) r) := by
  simp only [Record.isMarker, or_eq_false_iff] at data
  simp only [process, data.1, data.2, false_eq_true, if_false]

theorem process_other (keeps : op.KeepsToKey) (data : r.isMarker = false) (differs : r.key ≠ key)
    (reacts : op.process choice r = .send sends after) :
    sends.filter (concerns key) = [] ∧ Alike key after op := by
  obtain ⟨effect, returned, plain⟩ := keeps.1.1 (op.contextFor r.key r.timestamp) r
  rw [process_of_data op choice data, returned] at reacts
  cases reacts
  refine ⟨Record.filter_concerns_nil differs fun b mem => ?_, alike_apply_ne op effect differs.symm⟩
  exact ⟨plain b mem, keeps.2.1 _ _ _ returned b mem⟩

theorem Alike.process_data (alike : Alike r.key op twin) (data : r.isMarker = false)
    (reacts : op.process choice r = .send sends after) (answers :
    twin.process order r = .send sent later) : sends = sent ∧ Alike r.key after later := by
  rw [process_of_data op choice data] at reacts
  rw [process_of_data twin order data, ← alike.contextFor, alike.functions.1] at answers
  obtain ⟨equal, next⟩ := alike.call (op.fn (op.contextFor r.key r.timestamp) r)
  rw [reacts, answers] at equal next
  cases next with
  | some ends => exact ⟨equal, ends⟩

theorem Alike.process_marker (alike : Alike key op twin) (keeps : op.KeepsToKey) (mem' :
    twin.KeepsToKey) (marker : r.isMarker = true) (reacts : op.process choice r = .send sends after)
    (answers : twin.process order r = .send sent later) : sends.filter (concerns key) = sent.filter
    (concerns key) ∧ Alike key after later := by
  cases barrier : r.isBarrier with
  | true =>
    simp only [process, barrier, if_true] at reacts answers
    cases reacts
    cases answers
    exact ⟨rfl, alike⟩
  | false =>
    have watermark : r.isWatermark = true := by simpa [Record.isMarker, barrier] using marker
    simp only [process, barrier, watermark, false_eq_true, if_false, if_true] at reacts answers
    have advanced : Alike key { op with watermark := max op.watermark r.timestamp }
        { twin with watermark := max twin.watermark r.timestamp } :=
      ⟨alike.functions, by simp [alike.watermark], alike.state, alike.timers⟩
    have first := fireTimers_of { op with watermark := max op.watermark r.timestamp } keeps choice
      key
    have second := fireTimers_of { twin with watermark := max twin.watermark r.timestamp } mem'
      order key
    obtain ⟨equal, pairs⟩ := advanced.fireTimersOf
    obtain ⟨fired, middle, alone, goes, only, near⟩ := first
    obtain ⟨fired', middle', alone', goes', only', near'⟩ := second
    rw [only, only'] at pairs
    cases pairs with
    | some ends =>
      simp only [Reaction.andThen, goes, goes', Reaction.send] at reacts answers
      cases reacts
      cases answers
      refine ⟨?_, near.trans (ends.trans near'.symm)⟩
      rw [filter_append, filter_append, fired, fired', equal]

end KeyedProcessOperator

/-! ## The operators of a chain -/

/-- `reduces` tells whether a chain has a `Reduce`: then its records carry no windows. -/
def Calm (reduces : Bool) (r : Record) : Prop := reduces = true → r.Windowless

namespace Operator

/-- A `Reduce` or a `KeyedProcess` whose functions never fail, return no markers and emit only
records with the key they were called for. -/
def PerKey : Operator → Prop
  | .reduce op => ∀ accum r, (op.fn accum r).isSome = true
  | .keyedProcess op => op.KeepsToKey
  | _ => False

def EmitsOnly (holds : Record → Prop) : Operator → Prop
  | .keyedProcess op => op.EmitsOnly holds
  | _ => True

def reduces : Operator → Bool
  | .reduce _ => true
  | _ => false

def Alike (key : Bytes) : Operator → Operator → Prop
  | .reduce op, .reduce twin => ReduceOperator.Alike key op twin
  | .keyedProcess op, .keyedProcess twin => KeyedProcessOperator.Alike key op twin
  | _, _ => False

structure Within (keys : Bytes → Prop) (reduces : Bool) (op : Operator) : Prop where
  perKey : op.PerKey
  calm : op.reduces = true → reduces = true
  emits : op.EmitsOnly (Calm reduces)
  timers : ∀ process, op = .keyedProcess process → ∀ key ∈ process.timers.keys, keys key

def Fits (keys : Bytes → Prop) (reduces : Bool) (r : Record) : Prop :=
  r.isMarker = false → keys r.key ∧ Calm reduces r

theorem Alike.symm {key : Bytes} {op twin : Operator}
    (alike : Alike key op twin) : Alike key twin op := by
  cases op <;> cases twin <;> simp only [Alike] at alike ⊢
  · exact ⟨alike.1.symm, alike.2.symm⟩
  · exact alike.symm

variable [TimeText] [JoinText] {keys : Bytes → Prop} {reduces : Bool} {key : Bytes}
  {op twin after later : Operator} {choice order : Nat} {r : Record} {sends sent : List Record}

omit [JoinText] in
theorem within_reduce {op after : ReduceOperator} (within : Within keys reduces (.reduce op))
    (fits : Fits keys reduces r) (reacts : op.process r = .send sends after) :
    Within keys reduces (.reduce after) ∧ ∀ b ∈ sends, Fits keys reduces b := by
  have calm : reduces = true := within.calm rfl
  cases kind : r.isMarker with
  | true =>
    cases (op.process_marker kind).symm.trans reacts
    exact ⟨within, fun b mem => (mem_singleton.1 mem) ▸ fits⟩
  | false =>
    obtain ⟨inside, plain⟩ := fits kind
    obtain ⟨newAccum, -, rfl, rfl⟩ := ReduceOperator.process_eq_send kind (plain calm) reacts
    refine ⟨⟨within.perKey, within.calm, trivial, by simp⟩, fun b mem _ => ?_⟩
    rw [mem_singleton.1 mem]
    exact ⟨inside, plain⟩

omit [TimeText] [JoinText] in
theorem within_keyedProcess {op after : KeyedProcessOperator}
    (within : Within keys reduces (.keyedProcess op)) (fits : Fits keys reduces r)
    (reacts : op.process choice r = .send sends after) :
    Within keys reduces (.keyedProcess after) ∧ ∀ b ∈ sends, Fits keys reduces b := by
  have keeps : op.KeepsToKey := within.perKey
  have emits : op.EmitsOnly (Calm reduces) := within.emits
  have timers := within.timers op rfl
  -- The functions stay, so only the timers have to be looked at.
  have stays : ∀ later : KeyedProcessOperator, op.SameFunctions later →
      (∀ key ∈ later.timers.keys, keys key) → Within keys reduces (.keyedProcess later) := by
    intro later same inside
    have kept : later.KeepsToKey := by
      simpa only [KeyedProcessOperator.KeepsToKey, KeyedProcessOperator.Reliable, same.1, same.2]
        using keeps
    have emitted : later.EmitsOnly (Calm reduces) := by
      simpa only [KeyedProcessOperator.EmitsOnly, same.1, same.2] using emits
    exact ⟨kept,
      by simp [Operator.reduces], emitted, fun process equal => by cases equal; exact inside⟩
  cases kind : r.isMarker with
  | false =>
    obtain ⟨inside, -⟩ := fits kind
    obtain ⟨effect, returned, data⟩ := keeps.1.1 (op.contextFor r.key r.timestamp) r
    rw [op.process_of_data choice kind, returned] at reacts
    cases reacts
    refine ⟨stays _ ⟨rfl, rfl⟩ fun other mem => ?_, fun b mem _ => ?_⟩
    · rcases KeyedProcessOperator.mem_keys_apply mem with same | before
      · exact same ▸ inside
      · exact timers other before
    · have same : b.key = r.key := keeps.2.1 _ _ _ returned b mem
      exact ⟨same ▸ inside, emits.1 _ _ _ returned b mem⟩
  | true =>
    cases barrier : r.isBarrier with
    | true =>
      simp only [KeyedProcessOperator.process, barrier, if_true] at reacts
      cases reacts
      exact ⟨within, fun b mem => (mem_singleton.1 mem) ▸ fits⟩
    | false =>
      have watermark : r.isWatermark = true := by simpa [Record.isMarker, barrier] using kind
      have advanced : ({ op with watermark := max op.watermark r.timestamp } :
        KeyedProcessOperator).KeepsToKey := keeps
      obtain ⟨fired, middle, goes, same, inside⟩ :=
        KeyedProcessOperator.fireTimers_keeps advanced emits timers choice
      simp only [KeyedProcessOperator.process, barrier, watermark, false_eq_true, if_false,
        if_true, Reaction.andThen, goes, Reaction.send] at reacts
      cases reacts
      refine ⟨stays _ same inside, fun b mem => ?_⟩
      rcases mem_append.1 mem with timed | last
      · exact fun _ => (fired b timed).2
      · exact (mem_singleton.1 last) ▸ fits

theorem Within.process (within : op.Within keys reduces) (fits : Fits keys reduces r)
    (reacts : op.process choice r = .send sends after) :
    after.Within keys reduces ∧ ∀ b ∈ sends, Fits keys reduces b := by
  cases op with obtain ⟨next, goes, rfl⟩ := of_map_eq_send reacts
  | window op | intervalJoin op => exact within.perKey.elim
  | reduce op =>
    exact within_reduce within fits goes
  | keyedProcess op =>
    exact within_keyedProcess within fits goes

theorem Alike.process_other (alike : Alike key op twin) (within : op.Within keys reduces)
    (fits : Fits keys reduces r) (hidden : concerns key r = false)
    (reacts : op.process choice r = .send sends after) :
    sends.filter (concerns key) = [] ∧ Alike key after twin := by
  obtain ⟨data, differs⟩ : r.isMarker = false ∧ r.key ≠ key := by
    simpa [concerns] using hidden
  cases op with obtain ⟨next, goes, rfl⟩ := of_map_eq_send reacts
  | window op | intervalJoin op => exact within.perKey.elim
  | reduce op =>
    obtain ⟨silent, same⟩ := ReduceOperator.process_other data ((fits data).2 (within.calm rfl))
      differs goes
    cases twin <;> simp only [Alike] at alike ⊢
    exact ⟨silent, same.1.trans alike.1, same.2.trans alike.2⟩
  | keyedProcess op =>
    obtain ⟨silent, same⟩ := KeyedProcessOperator.process_other within.perKey data differs goes
    cases twin <;> simp only [Alike] at alike ⊢
    exact ⟨silent, same.trans alike⟩

theorem Alike.process (alike : Alike key op twin) (within : op.Within keys reduces)
    (mem' : twin.Within keys reduces) (fits : Fits keys reduces r) (shown : concerns key r = true)
    (reacts : op.process choice r = .send sends after)
    (answers : twin.process order r = .send sent later) : sends.filter (concerns key) = sent.filter
    (concerns key) ∧ Alike key after later := by
  have own : r.isMarker = false → r.key = key := by
    intro data
    simpa [concerns, data] using shown
  cases op with
  | window op | intervalJoin op => exact within.perKey.elim
  | reduce op =>
    cases twin <;> simp only [Alike] at alike
    rename_i twin
    obtain ⟨next, goes, rfl⟩ := of_map_eq_send reacts
    obtain ⟨next', goes', rfl⟩ := of_map_eq_send answers
    cases kind : r.isMarker with
    | true =>
      rw [op.process_marker kind] at goes
      rw [twin.process_marker kind] at goes'
      cases goes
      cases goes'
      exact ⟨rfl, alike⟩
    | false =>
      obtain rfl := own kind
      obtain ⟨rfl, same⟩ := ReduceOperator.Alike.process alike kind
        ((fits kind).2 (within.calm rfl)) goes goes'
      exact ⟨rfl, same⟩
  | keyedProcess op =>
    cases twin <;> simp only [Alike] at alike
    rename_i twin
    obtain ⟨next, goes, rfl⟩ := of_map_eq_send reacts
    obtain ⟨next', goes', rfl⟩ := of_map_eq_send answers
    cases kind : r.isMarker with
    | true => exact alike.process_marker within.perKey mem'.perKey kind goes goes'
    | false =>
      obtain rfl := own kind
      obtain ⟨rfl, same⟩ := alike.process_data kind goes goes'
      exact ⟨rfl, same⟩

end Operator

end Weibo
