import Weibo.Lib.ChainFlow
import Weibo.Operator.IntervalJoin
import Weibo.Operator.KeyedProcess
import Weibo.Operator.Reduce

/-!
# The stateful operators

The operators behind a KeyBy that can be cloned into the workers of a keyed stage. Each runs as a
goroutine that reads its input until it is closed; only a window with an idle timeout stops before.
-/

namespace Weibo

open List

inductive Operator
  | window (op : WindowOperator)
  | reduce (op : ReduceOperator)
  | keyedProcess (op : KeyedProcessOperator)
  | intervalJoin (op : IntervalJoinOperator)

namespace Operator

variable [TimeText] [JoinText]

/-- One round of the loop of `Process`. -/
def process : Operator → Nat → Record → Reaction Operator Record
  | .window op, choice, r => (op.process choice r).map .window
  | .reduce op, _, r => (op.process r).map .reduce
  | .keyedProcess op, choice, r => (op.process choice r).map .keyedProcess
  | .intervalJoin op, _, r => (op.process r).map .intervalJoin

/-- What `Process` does before it returns. -/
def finish : Operator → Nat → Reaction Operator Record
  | .window op, choice => (op.flushRemaining choice).map .window
  | op, _ => .send [] op

omit [TimeText] [JoinText] in
/-- Whether `Process` runs an idle timer. -/
def timed : Operator → Bool
  | .window op => decide (0 < op.idleTimeout)
  | _ => false

omit [TimeText] [JoinText] in
/-- `Clone`: the same configuration with fresh state. -/
def clone : Operator → Operator
  | .window op => .window { toWindowConfig := op.toWindowConfig }
  | .reduce op => .reduce { fn := op.fn }
  | .keyedProcess op => .keyedProcess { fn := op.fn, onTimer := op.onTimer }
  | .intervalJoin op => .intervalJoin
      { clock := { leftSource := op.clock.leftSource, rightSource := op.clock.rightSource }
        before := op.before
        after := op.after
        fn := op.fn }

/-! ## Markers of a steady operator -/

omit [TimeText] [JoinText] in
def Steady : Operator → Prop
  | .window op => ¬0 < op.idleTimeout ∧ WindowOperator.Total op.toWindowConfig
  | .reduce op => ∀ accum r, (op.fn accum r).isSome = true
  | .keyedProcess op => op.Reliable
  | .intervalJoin op => op.Reliable

end Operator

inductive Pulse
  | pass
  | absorb
  | align (clock : JoinClock)
  deriving DecidableEq

def Pulse.follow : Pulse → Record → Pulse × List Record
  | .pass, r => (.pass, [r])
  | .absorb, r => (.absorb, if r.isWatermark then [] else [r])
  | .align clock, r =>
    if r.isWatermark then (.align (clock.advance r).1, (clock.advance r).2)
    else (.align clock, [r])

def Operator.pulse : Operator → Pulse
  | .window _ => .absorb
  | .reduce _ => .pass
  | .keyedProcess _ => .pass
  | .intervalJoin op => .align op.clock

theorem Pulse.follow_forwards : Marked.Forwards Record.barrierID Pulse.follow := by
  intro pulse r
  have plain : ∀ clock : JoinClock, ∀ b ∈ (clock.advance r).2, b.barrierID = none := by
    intro clock b mem
    simp only [JoinClock.advance] at mem
    split at mem
    · cases mem
    · split at mem
      · cases mem
      · split at mem
        · obtain rfl := mem_singleton.1 mem
          rfl
        · cases mem
  cases barrier : r.barrierID with
  | none =>
    intro b mem
    cases pulse with simp only [follow] at mem
    | pass => exact (mem_singleton.1 mem) ▸ barrier
    | absorb =>
      split at mem
      · cases mem
      · exact (mem_singleton.1 mem) ▸ barrier
    | align clock =>
      split at mem
      · exact plain clock b mem
      · exact (mem_singleton.1 mem) ▸ barrier
  | some id =>
    have watermark : r.isWatermark = false := by
      cases kind : r.isWatermark with
      | false => rfl
      | true => simp [Record.barrierID, kind] at barrier
    exact ⟨r, by cases pulse <;> simp [follow, watermark], barrier⟩

namespace Operator

variable [TimeText] [JoinText]

variable {op : Operator}

theorem process_data (steady : op.Steady) (choice : Nat) {r : Record} (data : r.isMarker = false) :
    (op.process choice r).Meets (fun r => r.isMarker = false) fun after =>
      after.Steady ∧ after.pulse = op.pulse := by
  cases op with
  | window op =>
    obtain ⟨sends, after, next, same⟩ := op.process_data choice data
    have meets : (op.process choice r).Meets (fun r => r.isMarker = false) fun q =>
        q.toWindowConfig = op.toWindowConfig := ⟨by simp [sends], after, next, same⟩
    exact meets.map fun q same => ⟨by simpa [Steady, same] using steady, rfl⟩
  | reduce op =>
    exact (op.process_data steady data).map fun q same =>
      ⟨by simpa [Steady, same] using steady, rfl⟩
  | keyedProcess op =>
    refine (op.process_data steady choice data).map fun q same => ⟨?_, rfl⟩
    simpa [Steady, KeyedProcessOperator.Reliable, same.1, same.2] using steady
  | intervalJoin op =>
    refine (op.process_data steady data).map fun q same => ⟨?_, by simp [pulse, same.2]⟩
    simpa [Steady, IntervalJoinOperator.Reliable, same.1] using steady

theorem process_marker (steady : op.Steady) (choice : Nat) {r : Record}
    (marker : r.isMarker = true) :
    (op.process choice r).sends.filter Record.isMarker = (op.pulse.follow r).2 ∧
      ∃ after, (op.process choice r).next = some after ∧ after.Steady ∧
        after.pulse = (op.pulse.follow r).1 := by
  cases op with
  | window op =>
    obtain ⟨sends, after, next, same⟩ := op.process_marker steady.2 choice marker
    refine ⟨sends, .window after, by simp [process, Reaction.map, next], ?_, rfl⟩
    simpa [Steady, same] using steady
  | reduce op =>
    rw [process, op.process_marker marker]
    exact ⟨by simp [Reaction.map, Reaction.send, marker, pulse, Pulse.follow], .reduce op, rfl,
      steady, rfl⟩
  | keyedProcess op =>
    obtain ⟨sends, after, next, same⟩ := op.process_marker steady choice marker
    refine ⟨sends, .keyedProcess after, by simp [process, Reaction.map, next], ?_, rfl⟩
    simpa [Steady, KeyedProcessOperator.Reliable, same.1, same.2] using steady
  | intervalJoin op =>
    obtain ⟨sends, after, next, fn, clock⟩ := op.process_marker marker
    refine ⟨?_, .intervalJoin after, by simp [process, Reaction.map, next], ?_, ?_⟩
    · simp only [process, Reaction.map, sends, pulse, Pulse.follow]
      split
      · exact JoinClock.advance_markers op.clock r
      · simp [marker]
    · simpa [Steady, IntervalJoinOperator.Reliable, fn] using steady
    · simp only [pulse, clock, Pulse.follow]
      split <;> rfl

omit [JoinText] in
theorem finish_data (steady : op.Steady) (choice : Nat) :
    (op.finish choice).Meets (fun r => r.isMarker = false) fun _ => True := by
  cases op with
  | window op => exact (op.flushRemaining_meets steady.2 choice).map fun _ _ => trivial
  | reduce op | keyedProcess op | intervalJoin op => exact Reaction.meets_send (by simp) trivial

end Operator

end Weibo
