import Weibo.Engine.Delivery
import Weibo.Engine.Ingest
import Weibo.Pipeline.Stages

/-!
# Finite inputs

When the source ends, the injector sends the final barrier, the stages run to the end of their input
and the transactional sink returns. A window fires what it still holds behind the final barrier,
into the transaction that the sink aborts when it returns.
-/

namespace Weibo.Engine

open Checkpoint Pipeline Sink Source List Record
open Chain (unmarked)
open Marked (marks behind)
open Record (isCheckpoint barrierID)
open Transition (Reach Always)
open WatermarkSource (maxWatermark)

section Execution

variable [TimeText] [JoinText] {π ν : Type}

/-- What `SinkStage` hands to a coordinated sink. -/
def sinkInput (output : List Record) : List Record := output.filter fun r => !r.isWatermark

/-- `Execute` has returned because the source reached its end, and nothing has failed; `ok` is
what holds of the tasks when their input ends. -/
structure Executed (serialize : Option (Record → Bytes)) (stages : List Stage) (ok : Task → Prop)
    (runNonce : Nat) (watermarks : Option WatermarkSource) (source : List Record) (s : Ingest)
    (output : List Record) (d : Delivery π ν) : Prop where
  ingest : Reach Ingest.step (fun _ a => a.isCancel = false) (.start runNonce watermarks source) s
  ended : s.phase = .returned
  plan : PlanEnds ok stages s.out output
  sink : Reach (Delivery.step (.accepting serialize)) Always (.start [] {} (sinkInput output)) d
  returned : d.run.sink.loop = .returned

/-- The topic shows all that the stages make of what was sent. -/
def FullyCommitted (serialize : Option (Record → Bytes)) (stages : List Stage) (s : Ingest)
    (d : Delivery π ν) : Prop :=
  ∃ plain, PlanEnds (fun _ => True) stages s.sent plain ∧
    Coordinated.Written (.accepting serialize) [] (data plain) d.run.topic.visible

omit [TimeText] [JoinText] in
theorem data_sinkInput (output : List Record) : data (sinkInput output) = data output := by
  rw [data, sinkInput, filter_filter]
  refine filter_congr fun r _ => ?_
  cases watermark : r.isWatermark <;> simp [isMarker, watermark]

omit [TimeText] [JoinText] in
theorem marks_sinkInput (output : List Record) :
    marks barrierID (sinkInput output) = marks barrierID output := by
  rw [marks, sinkInput, filterMap_filter]
  refine filterMap_congr fun r _ => ?_
  cases watermark : r.isWatermark <;> simp [barrierID, watermark]

omit [TimeText] [JoinText] in
theorem marks_checkpoints (stream : List Record) :
    marks barrierID (stream.filter isCheckpoint) = marks barrierID stream := by
  rw [marks, filterMap_filter]
  refine filterMap_congr fun r _ => ?_
  cases barrier : r.barrierID <;> simp [isCheckpoint, barrier]

omit [TimeText] [JoinText] in
theorem data_unmarked (stream : List Record) :
    data (unmarked isCheckpoint stream) = data stream := by
  rw [data, unmarked, filter_filter]
  refine filter_congr fun r _ => ?_
  cases kind : r.isMarker with
  | true => rfl
  | false => simp [isCheckpoint, barrierID_of_data kind]

omit [TimeText] [JoinText] in
theorem ingest_ended {runNonce : Nat} {watermarks : Option WatermarkSource} {source : List Record}
    (data : ∀ r ∈ source, r.isMarker = false) {s : Ingest}
    (reach :
      Reach Ingest.step (fun _ a => a.isCancel = false) (.start runNonce watermarks source) s)
    (ended : s.phase = .returned) : (∃ front id, s.out = front ++ [newBarrier id]) ∧
      unmarked isCheckpoint s.out = s.sent ∧ (marks barrierID s.out).Nodup := by
  have inv : Ingest.Inv runNonce s := reach.invariant
    (Ingest.inv_start fun r mem => barrierID_of_data (data r mem))
    fun _ _ _ inv _ moves => inv.step moves
  have running : s.cancelled = false := by
    clear inv ended
    induction reach with
    | refl => rfl
    | tail a _ uncancelled moves ih =>
      cases Ingest.move_of_step moves with
      | cancel => cases uncancelled
      | _ => exact ih
  obtain ⟨-, empty, last⟩ := (inv.ending running).2 ended
  exact ⟨last, by simpa [empty] using inv.order, inv.distinct⟩

/-- In every execution of a finite source, with or without a `WatermarkSource`, in which no idle
timer runs and user functions neither fail nor return markers: if no window holds records when its
input ends, the sink has committed what the pipeline emits without checkpointing. -/
theorem finite_input_committed (serialize : Option (Record → Bytes)) (stages : List Stage)
    (steady : ∀ stage ∈ stages, stage.Steady) (runNonce : Nat) (watermarks : Option WatermarkSource)
    (source : List Record) (data : ∀ r ∈ source, r.isMarker = false) (s : Ingest)
    (output : List Record) (d : Delivery π ν) (executed : Executed serialize stages Task.Idle
    runNonce watermarks source s output d) : FullyCommitted serialize stages s d := by
  obtain ⟨ingest, ended, plan, sink, returned⟩ := executed
  obtain ⟨⟨front, id, out⟩, sent, distinct⟩ := ingest_ended data ingest ended
  -- without the barriers the stages would have sent the same
  have plain := plan.erase steady
  rw [sent] at plain
  refine ⟨_, plain.mono fun _ _ => trivial, ?_⟩
  rw [data_unmarked]
  -- the final barrier is the last record that reaches the sink
  have barriers := plan.checkpoints steady
  rw [out] at plan
  obtain ⟨ahead, last⟩ := plan.last steady rfl
  have uncovered : behind barrierID (sinkInput output) = [] := by
    rw [last, sinkInput, filter_append]
    exact Marked.behind_append_marked rfl
  have unique : (marks barrierID (sinkInput output)).Nodup := by
    rw [marks_sinkInput, ← marks_checkpoints, barriers, marks_checkpoints]
    exact distinct
  have finished := Delivery.finished_of_reach agrees_empty settled_empty
    (fun id _ decided => by simp [Coordinated.Decided, Coordinated.start] at decided) unique
    (TxnKafkaConfig.message_accepting serialize) sink returned
  rw [← data_sinkInput]
  exact finished.visible (sinkInput output) (by rw [uncovered, append_nil])

end Execution

/-! ## A record in a window -/

section Examples

attribute [local instance] TimeText.blank JoinText.blank

theorem minute_pos : (0 : Duration) < 60 := by decide

def minutes : WindowOperator := { assigner := .tumbling ⟨60, 0, minute_pos⟩ }

def minutePlan : List Stage := [.channel (.window minutes)]

def lone : Record := { value := [1], timestamp := 5 }

def holding : WindowOperator :=
  { minutes with recState := (∅ : ListState WindowKey Record).append ⟨[], 0, 60⟩ lone.stored }

def firedLone : Record := tagWithWindowAndLateness lone.stored ⟨0, 60⟩ 0

def finalBarrier : Record := .newBarrier ⟨1, 1, .final⟩

theorem minutes_process (choice : Nat) : minutes.process choice lone = .send [] holding := rfl

theorem holding_flushRemaining (choice : Nat) :
    holding.flushRemaining choice = .send [firedLone] { minutes with recState := ∅ } := by
  have keys : holding.recState.keys = [⟨[], 0, 60⟩] := rfl
  rw [WindowOperator.flushRemaining, keys, arrange_singleton]
  rfl

theorem holding_process_max (choice : Nat) :
    holding.process choice maxWatermark = .send [firedLone]
      { minutes with
        recState := ∅
        currentWatermark := maxWatermark.timestamp } := by
  have keys : holding.recState.keys = [⟨[], 0, 60⟩] := rfl
  have fires : holding.process choice maxWatermark =
      holding.handleWatermark choice maxWatermark := rfl
  rw [fires, WindowOperator.handleWatermark]
  simp only [keys, arrange_singleton]
  rfl

def loneIngest : List IngestAction := [.read, .forward, .ended, .flush true, .pass]

def deliverBarrier : List (DeliveryAction Unit Unit) :=
  [.deliver (), .move (.flush true), .move .notify, .move .send, .move .dequeue,
    .move (.persist true), .move (.commit .done), .move (.complete true), .move .commitOffsets,
    .move .resume]

def deliverRecord : List (DeliveryAction Unit Unit) := [.deliver (), .move (.receive true)]

/-- With a `WatermarkSource` the window fires ahead of the final barrier, and its output is
committed. -/
theorem finite_input_committed_window :
    ∃ (s : Ingest) (output : List Record) (d : Delivery Unit Unit),
      Executed none minutePlan Task.Idle 1
        (some { generator := ⟨0, Time.zero⟩ }) [lone] s output d ∧
      FullyCommitted none minutePlan s d := by
  obtain ⟨s, ingest, facts⟩ := Reach.exists_of_guarded Ingest.step (fun _ a => a.isCancel = false)
    (.start 1 (some { generator := ⟨0, Time.zero⟩ }) [lone]) (loneIngest ++ [.pass, .finish])
    (fun s => decide (s.phase = .returned ∧
      s.out = [lone, maxWatermark, finalBarrier])) (by decide +kernel)
  obtain ⟨d, sink, returned⟩ := Reach.exists_of_run (Delivery.step (.accepting none))
    (.start [] {} (sinkInput [firedLone, finalBarrier]))
    ([.inject none] ++ deliverRecord ++ deliverBarrier ++ [.close, .finish])
    (fun d => decide (d.run.sink.loop = .returned)) (by decide +kernel)
  obtain ⟨ended, out⟩ := of_decide_eq_true facts
  have plan : PlanEnds Task.Idle minutePlan s.out [firedLone, finalBarrier] := by
    rw [out]
    refine ⟨_, Stage.channel_ends.2 ?_, rfl⟩
    exact ⟨_, _, 0, [], _, .cons 0 (react_window (minutes_process 0))
      (.cons 0 (react_window (holding_process_max 0)) (.cons 0 rfl (.nil _))), rfl, rfl,
      rfl⟩
  have executed : Executed none minutePlan Task.Idle 1 (some { generator := ⟨0, Time.zero⟩ })
      [lone] s _ d := ⟨ingest, ended, plan, sink, of_decide_eq_true returned⟩
  refine ⟨s, _, d, executed, finite_input_committed none minutePlan ?_ 1 _ [lone] ?_ s _ d executed⟩
  · intro stage mem
    obtain rfl : stage = .channel (.window minutes) := by simpa [minutePlan] using mem
    intro w task inside
    obtain rfl : task = .stateful (.window minutes) := by simpa [Stage.channel] using inside
    exact ⟨by decide, fun _ none => by cases none⟩
  · intro r mem
    rw [mem_singleton.1 mem]
    rfl

/-- Without watermarks the window fires when its input ends, behind the final barrier: nothing
is committed, although every run without checkpointing emits the record. -/
theorem window_flush_uncommitted : ∃ (s : Ingest) (output : List Record) (d : Delivery Unit Unit),
      Executed none minutePlan (fun _ => True) 1 none [lone] s output d ∧
      ¬FullyCommitted none minutePlan s d := by
  obtain ⟨s, ingest, facts⟩ := Reach.exists_of_guarded Ingest.step (fun _ a => a.isCancel = false)
    (.start 1 none [lone]) (loneIngest ++ [.finish])
    (fun s => decide (s.phase = .returned ∧ s.out = [lone, finalBarrier] ∧ s.sent = [lone]))
    (by decide +kernel)
  obtain ⟨d, sink, result⟩ := Reach.exists_of_run (Delivery.step (.accepting none))
    (.start [] {} (sinkInput [finalBarrier, firedLone]))
    ([.inject none] ++ deliverBarrier ++ deliverRecord ++ [.close, .finish])
    (fun d => decide (d.run.sink.loop = .returned ∧ d.run.topic.visible = [])) (by decide +kernel)
  obtain ⟨ended, out, sent⟩ := of_decide_eq_true facts
  obtain ⟨returned, nothing⟩ := of_decide_eq_true result
  have plan : PlanEnds (fun _ => True) minutePlan s.out [finalBarrier, firedLone] := by
    rw [out]
    refine ⟨_, Stage.channel_ends.2 ?_, rfl⟩
    exact ⟨_, _, 0, _, _, .cons 0 (react_window (minutes_process 0))
      (.cons 0 rfl (.nil _)), trivial, flush_window (holding_flushRemaining 0), rfl⟩
  refine ⟨s, _, d, ⟨ingest, ended, plan, sink, returned⟩, ?_⟩
  rintro ⟨plain, ⟨_, ends, rfl⟩, messages, written, visible⟩
  -- every run without checkpointing takes the record and fires at the end of its input
  obtain ⟨ran, q, choice, flushed, last, runs, -, flush, rfl⟩ := Stage.channel_ends.1 ends
  rw [sent] at runs
  obtain ⟨taken, reacts⟩ := runs.of_singleton
  have held : tasks.react (.stateful (.window minutes)) taken lone =
      .send [] (.stateful (.window holding)) := react_window (minutes_process taken)
  have fires : tasks.flush (.stateful (.window holding)) choice =
      .send [firedLone] (.stateful (.window { minutes with recState := ∅ })) :=
    flush_window (holding_flushRemaining choice)
  cases held.symm.trans reacts
  cases fires.symm.trans flush
  rw [nothing, nil_append] at visible
  subst visible
  cases written

end Examples

end Weibo.Engine
