import Mathlib.Data.List.Sort
import Weibo.Lib.Reaction
import Weibo.State.Memory

/-!
# The keyed process operator

`KeyedProcessOperator` hands every record to a user function with the state of the record's key, and
calls a second function for the timers that a watermark makes due. A function returns the records to
send and what it changed; an error is raised as a panic.
-/

namespace Weibo

abbrev KeyedValues := AList fun _ : String => Bytes

/-- `KeyedContext`, what a user function sees. -/
structure KeyedContext where
  key : Bytes
  timestamp : Time
  currentWatermark : Time
  values : KeyedValues

structure KeyedEffect where
  values : KeyedValues
  timers : List Time
  records : List Record

structure KeyedProcessOperator where
  fn : KeyedContext → Record → Option KeyedEffect
  onTimer : Option (KeyedContext → Time → Option KeyedEffect) := none
  state : ValueState Bytes KeyedValues := ∅
  timers : ListState Bytes Int := ∅
  watermark : Time := Time.zero

namespace KeyedProcessOperator

def registerEventTimeTimer (timers : ListState Bytes Int) (key : Bytes) (ts : Time) :
    ListState Bytes Int :=
  let existing := timers.getAll key
  if ts.unixNano ∈ existing then timers
  else timers.insert key (existing.orderedInsert (· ≤ ·) ts.unixNano)

def contextFor (op : KeyedProcessOperator) (key : Bytes) (ts : Time) : KeyedContext :=
  ⟨key, ts, op.watermark, (op.state.lookup key).getD ∅⟩

def apply (op : KeyedProcessOperator) (key : Bytes) (effect : KeyedEffect) :
    KeyedProcessOperator :=
  { op with
    state := op.state.insert key effect.values
    timers :=
      effect.timers.foldl (fun timers ts => registerEventTimeTimer timers key ts) op.timers }

def call (op : KeyedProcessOperator) (key : Bytes) (effect : Option KeyedEffect) :
    Reaction KeyedProcessOperator Record :=
  match effect with
  | none => .fail
  | some effect => .send effect.records (op.apply key effect)

/-- The timers of one key in `fireTimers`. -/
def fireKey (onTimer : KeyedContext → Time → Option KeyedEffect) (key : Bytes)
    (op : KeyedProcessOperator) : Reaction KeyedProcessOperator Record :=
  let (due, future) := (op.timers.getAll key).partition fun ts => decide (ts ≤ op.watermark)
  if due.isEmpty then .send [] op
  else
    let kept := if future.isEmpty then op.timers.clear key else op.timers.insert key future
    .forEach (fun ts op => op.call key (onTimer (op.contextFor key op.watermark) ts)) due
      { op with timers := kept }

def fireTimers (op : KeyedProcessOperator) (choice : Nat) : Reaction KeyedProcessOperator Record :=
  match op.onTimer with
  | none => .send [] op
  | some onTimer =>
    if op.watermark.isZero then .send [] op
    else .forEach (fireKey onTimer) (arrange choice op.timers.keys) op

/-- One round of the loop of `Process`. -/
def process (op : KeyedProcessOperator) (choice : Nat) (r : Record) :
    Reaction KeyedProcessOperator Record :=
  if r.isBarrier then .send [r] op
  else if r.isWatermark then
    ({ op with watermark := max op.watermark r.timestamp }.fireTimers choice).andThen
      fun op => .send [r] op
  else op.call r.key (op.fn (op.contextFor r.key r.timestamp) r)

/-! ## Functions that keep to data -/

def DataOnly {ι : Type} (fn : KeyedContext → ι → Option KeyedEffect) : Prop :=
  ∀ context input, ∃ effect, fn context input = some effect ∧
    ∀ r ∈ effect.records, r.isMarker = false

def Reliable (op : KeyedProcessOperator) : Prop :=
  DataOnly op.fn ∧ ∀ onTimer, op.onTimer = some onTimer → DataOnly onTimer

def SameFunctions (op after : KeyedProcessOperator) : Prop :=
  after.fn = op.fn ∧ after.onTimer = op.onTimer

theorem call_meets {ι : Type} {fn : KeyedContext → ι → Option KeyedEffect} (dataOnly : DataOnly fn)
    (op : KeyedProcessOperator) (key : Bytes) (context : KeyedContext) (input : ι) :
    (op.call key (fn context input)).Meets (fun r => r.isMarker = false) op.SameFunctions := by
  obtain ⟨effect, returned, data⟩ := dataOnly context input
  simp only [call, returned]
  exact Reaction.meets_send data ⟨rfl, rfl⟩

variable {op : KeyedProcessOperator}

theorem fireTimers_meets (reliable : op.Reliable) (choice : Nat) :
    (op.fireTimers choice).Meets (fun r => r.isMarker = false) op.SameFunctions := by
  simp only [fireTimers]
  split
  · exact Reaction.meets_send (by simp) ⟨rfl, rfl⟩
  next onTimer configured =>
    split
    · exact Reaction.meets_send (by simp) ⟨rfl, rfl⟩
    · refine Reaction.meets_forEach ⟨rfl, rfl⟩ fun key _ current same => ?_
      simp only [fireKey]
      split
      · exact Reaction.meets_send (by simp) same
      · refine Reaction.meets_forEach same fun ts _ later kept => ?_
        obtain ⟨sends, after, next, functions⟩ :=
          call_meets (reliable.2 onTimer configured) later key
            (later.contextFor key later.watermark) ts
        exact ⟨sends, after, next, functions.1.trans kept.1, functions.2.trans kept.2⟩

theorem process_data (reliable : op.Reliable) (choice : Nat) {r : Record}
    (data : r.isMarker = false) : (op.process choice r).Meets
    (fun r => r.isMarker = false) op.SameFunctions := by
  simp only [Record.isMarker, Bool.or_eq_false_iff] at data
  simp only [process, data.1, data.2, Bool.false_eq_true, if_false]
  exact call_meets reliable.1 op r.key _ r

theorem process_marker (reliable : op.Reliable) (choice : Nat) {r : Record}
    (marker : r.isMarker = true) :
    (op.process choice r).sends.filter Record.isMarker = [r] ∧
      ∃ after, (op.process choice r).next = some after ∧ op.SameFunctions after := by
  simp only [process]
  cases barrier : r.isBarrier with
  | true => exact ⟨by simp [Reaction.send, marker], op, rfl, rfl, rfl⟩
  | false =>
    have watermark : r.isWatermark = true := by simpa [Record.isMarker, barrier] using marker
    have advanced : ({ op with watermark := max op.watermark r.timestamp } :
      KeyedProcessOperator).Reliable := reliable
    obtain ⟨sends, after, next, same⟩ := fireTimers_meets advanced choice
    simp only [watermark, Bool.false_eq_true, if_false, if_true, Reaction.andThen, next,
      Reaction.send, List.filter_append]
    exact ⟨by simpa [marker, List.filter_eq_nil_iff] using sends, after, rfl, same⟩

end KeyedProcessOperator

end Weibo
