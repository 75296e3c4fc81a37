import Weibo.Lib.Reaction
import Weibo.State.Memory

/-!
# The interval join

`IntervalJoinOperator` joins two streams that share one channel, told apart by `Record.Source`. It
keeps one watermark per side: only their minimum is passed on, and it bounds what is evicted. The
JSON object that the default join writes is the parameter `JoinText`.
-/

namespace Weibo

/-- `json.Marshal` of the object that holds two payloads. -/
class JoinText where
  marshal : Bytes → Bytes → Bytes

/-- Payloads whose join is empty. -/
@[reducible]
def JoinText.blank : JoinText := ⟨fun _ _ => []⟩

structure JoinClock where
  leftSource : String
  rightSource : String
  leftWatermark : Time := Time.zero
  rightWatermark : Time := Time.zero
  emittedWatermark : Time := Time.zero
  deriving DecidableEq

def alignedWatermark (a b : Time) : Time :=
  if a.isZero || b.isZero then Time.zero else min a b

namespace JoinClock

/-- The side watermarks after a watermark record; `none` for an unknown source. -/
def observe (clock : JoinClock) (r : Record) : Option JoinClock :=
  if r.source = clock.leftSource then
    some { clock with leftWatermark := max clock.leftWatermark r.timestamp }
  else if r.source = clock.rightSource then
    some { clock with rightWatermark := max clock.rightWatermark r.timestamp }
  else if r.source = "" then
    some { clock with
      leftWatermark := max clock.leftWatermark r.timestamp
      rightWatermark := max clock.rightWatermark r.timestamp }
  else none

def aligned (clock : JoinClock) : Time :=
  alignedWatermark clock.leftWatermark clock.rightWatermark

def advance (clock : JoinClock) (r : Record) : JoinClock × List Record :=
  match clock.observe r with
  | none => (clock, [])
  | some clock =>
    if clock.aligned.isZero then (clock, [])
    else if clock.aligned > clock.emittedWatermark then
      ({ clock with emittedWatermark := clock.aligned }, [Record.newWatermark clock.aligned])
    else (clock, [])

theorem advance_markers (clock : JoinClock) (r : Record) :
    (clock.advance r).2.filter Record.isMarker = (clock.advance r).2 := by
  simp only [advance]
  split
  · rfl
  · split
    · rfl
    · split <;> rfl

end JoinClock

structure IntervalJoinOperator where
  clock : JoinClock
  before : Duration
  after : Duration
  fn : Option (Record → Record → Option Record) := none
  left : ListState Bytes Record := ∅
  right : ListState Bytes Record := ∅

namespace IntervalJoinOperator

def inRange (op : IntervalJoinOperator) (leftTS rightTS : Time) : Bool :=
  decide (leftTS - op.before ≤ rightTS ∧ rightTS ≤ leftTS + op.after)

def join [JoinText] (op : IntervalJoinOperator) (left right : Record) : Option Record :=
  match op.fn with
  | some fn => fn left right
  | none => some
      { key := left.key
        value := JoinText.marshal left.value right.value
        timestamp := max left.timestamp right.timestamp
        headers := [("join_left_source", op.clock.leftSource.toUTF8.toList),
          ("join_right_source", op.clock.rightSource.toUTF8.toList)] }

/-- `emitMatches`: `pair` puts a buffered record and the new one on their sides. -/
def emitMatches [JoinText] (pair : Record → Record × Record) (others : List Record)
    (op : IntervalJoinOperator) : Reaction IntervalJoinOperator Record :=
  .forEach (fun other op =>
      if op.inRange (pair other).1.timestamp (pair other).2.timestamp then
        match op.join (pair other).1 (pair other).2 with
        | none => .fail
        | some joined => .send [joined] op
      else .send [] op)
    others op

def handleRecord [JoinText] (op : IntervalJoinOperator) (r : Record) :
    Reaction IntervalJoinOperator Record :=
  if r.source = op.clock.leftSource then
    (emitMatches (fun other => (r, other)) (op.right.getAll r.key) op).andThen fun op =>
      .send [] { op with left := op.left.append r.key r.stored }
  else if r.source = op.clock.rightSource then
    (emitMatches (fun other => (other, r)) (op.left.getAll r.key) op).andThen fun op =>
      .send [] { op with right := op.right.append r.key r.stored }
  else .send [] op

def evict (state : ListState Bytes Record) (cutoff : Time) : ListState Bytes Record :=
  state.keys.foldl (fun state key =>
    let keep := (state.getAll key).filter fun r => decide (cutoff ≤ r.timestamp)
    (state.clear key).appendAll key keep) state

/-- Both calls of `evict` in `handleWatermark`. -/
def evictSides (op : IntervalJoinOperator) (aligned : Time) : IntervalJoinOperator :=
  { op with
    left := evict op.left (aligned - op.after)
    right := evict op.right (aligned - op.before) }

def handleWatermark (op : IntervalJoinOperator) (r : Record) :
    Reaction IntervalJoinOperator Record :=
  let (clock, sends) := op.clock.advance r
  let kept := if (op.clock.observe r).isNone ∨ clock.aligned.isZero then op
    else op.evictSides clock.aligned
  .send sends { kept with clock := clock }

/-- One round of the loop of `Process`. -/
def process [JoinText] (op : IntervalJoinOperator) (r : Record) :
    Reaction IntervalJoinOperator Record :=
  if r.isWatermark then op.handleWatermark r
  else if r.isBarrier then .send [r] op
  else op.handleRecord r

/-! ## Join functions that keep to data -/

def Reliable (op : IntervalJoinOperator) : Prop :=
  ∀ fn, op.fn = some fn → ∀ left right, ∃ r, fn left right = some r ∧ r.isMarker = false

variable [JoinText]

variable {op : IntervalJoinOperator}

theorem join_data (reliable : op.Reliable) (left right : Record) :
    ∃ r, op.join left right = some r ∧ r.isMarker = false := by
  simp only [join]
  cases configured : op.fn with
  | none => exact ⟨_, rfl, rfl⟩
  | some fn => exact reliable fn configured left right

theorem emitMatches_meets (reliable : op.Reliable) (pair : Record → Record × Record)
    (others : List Record) : (emitMatches pair others op).Meets
    (fun r => r.isMarker = false) fun after => after = op := by
  refine Reaction.meets_forEach rfl fun other _ current same => ?_
  subst same
  obtain ⟨joined, result, data⟩ := join_data reliable (pair other).1 (pair other).2
  split
  · simp only [result]
    exact Reaction.meets_send (by simpa using data) rfl
  · exact Reaction.meets_send (by simp) rfl

theorem process_data (reliable : op.Reliable) {r : Record} (data : r.isMarker = false) :
    (op.process r).Meets (fun r => r.isMarker = false) fun after =>
      after.fn = op.fn ∧ after.clock = op.clock := by
  simp only [Record.isMarker, Bool.or_eq_false_iff] at data
  simp only [process, data.1, data.2, Bool.false_eq_true, if_false, handleRecord]
  split
  · refine (emitMatches_meets reliable _ _).andThen fun after same => ?_
    exact same ▸ Reaction.meets_send (by simp) ⟨rfl, rfl⟩
  · split
    · refine (emitMatches_meets reliable _ _).andThen fun after same => ?_
      exact same ▸ Reaction.meets_send (by simp) ⟨rfl, rfl⟩
    · exact Reaction.meets_send (by simp) ⟨rfl, rfl⟩

theorem process_marker (op : IntervalJoinOperator) {r : Record} (marker : r.isMarker = true) :
    (op.process r).sends = (if r.isWatermark then (op.clock.advance r).2 else [r]) ∧
      ∃ after, (op.process r).next = some after ∧ after.fn = op.fn ∧
        after.clock = if r.isWatermark then (op.clock.advance r).1 else op.clock := by
  simp only [process]
  cases watermark : r.isWatermark with
  | true =>
    refine ⟨rfl, _, rfl, ?_, rfl⟩
    rw [apply_ite IntervalJoinOperator.fn]
    exact ite_self _
  | false =>
    have barrier : r.isBarrier = true := by simpa [Record.isMarker, watermark] using marker
    simp [barrier, Reaction.send]

end IntervalJoinOperator

end Weibo
