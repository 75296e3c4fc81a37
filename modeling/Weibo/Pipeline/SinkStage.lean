import Weibo.Pipeline.AlignedMerge
import Weibo.Sink.SinkModel

/-!
# The sink stage under uncoordinated checkpointing

`SinkStage.Run` pumps records into a channel that the sink's `Write` goroutine receives from. At a
barrier it waits until that channel is empty and then calls `OnBarrier`, which saves the checkpoint:
the sink has received the records by then, no more.
-/

namespace Weibo.Pipeline

open Weibo.Sink List Option
open Transition (Reach Always run of_ite_some)

inductive PumpLoop
  | receive
  | barrier (id : Option CheckpointID)
  | send (r : Record)
  | closing
  | returned

/-- A running `SinkStage` over the sink `M`. -/
structure SinkStage (M : SinkModel) where
  input : List Record
  pumped : List Record := []
  shut : Bool := false
  cancelled : Bool := false
  pumping : Bool := true
  loop : PumpLoop := .receive
  sink : M.State := M.start
  ahead : List Record := []
  saved : List (List Record) := []

inductive StageAction (M : SinkModel)
  | receive
  | save (ok : Bool)
  | sinkReturned
  | stopPumping
  | push
  | close
  | ret
  | hardCancel
  | sink (a : M.Action)

namespace SinkStage

variable {M : SinkModel}

def accept (s : SinkStage M) (r : Record) : SinkStage M :=
  if s.pumping then
    if r.isBarrier then { s with loop := .barrier r.checkpointID }
    else if r.isWatermark then s
    else { s with loop := .send r, ahead := s.ahead ++ [r] }
  else s

def step (s : SinkStage M) : StageAction M → Option (SinkStage M)
  | .receive =>
    match s.loop, s.input with
    | .receive, r :: rest => some ({ s with input := rest }.accept r)
    | _, _ => none
  | .save ok =>
    match s.loop, s.pumped with
    | .barrier _, [] =>
      some { s with loop := .receive, saved := if ok then s.saved ++ [s.ahead] else s.saved }
    | _, _ => none
  | .sinkReturned =>
    match s.loop with
    | .barrier _ =>
      if s.pumped ≠ [] ∧ M.returned s.sink then some { s with loop := .returned } else none
    | .send _ => if M.returned s.sink then some { s with loop := .returned } else none
    | _ => none
  | .stopPumping =>
    match s.loop with
    | .barrier _ =>
      if s.pumped ≠ [] ∧ s.cancelled then some { s with loop := .receive, pumping := false }
      else none
    | .send _ => if s.cancelled then some { s with loop := .receive, pumping := false } else none
    | _ => none
  | .push =>
    match s.loop with
    | .send r =>
      if s.pumped.length < internalBuf then
        some { s with loop := .receive, pumped := s.pumped ++ [r] }
      else none
    | _ => none
  | .close =>
    match s.loop, s.input with
    | .receive, [] => some { s with loop := .closing, shut := true }
    | _, _ => none
  | .ret =>
    match s.loop with
    | .closing => if M.returned s.sink then some { s with loop := .returned } else none
    | _ => none
  | .hardCancel => some { s with cancelled := true }
  | .sink a =>
    (M.step s.sink s.pumped s.shut s.cancelled a).map fun x => { s with sink := x.1, pumped := x.2 }

def SavesIdle (s : SinkStage M) : StageAction M → Prop
  | .save _ => M.Idle s.sink
  | _ => True

def held : PumpLoop → List Record
  | .send r => [r]
  | _ => []

/-- While the pump feeds the sink, the records ahead were received by the sink, are
buffered or are in the pump's hand. -/
structure Inv (s : SinkStage M) : Prop where
  accounts : ∃ received, M.Accounts s.sink received ∧
    (s.pumping = true → s.loop ≠ .returned → s.ahead = received ++ s.pumped ++ held s.loop)
  feeding : ∀ id, s.loop = .barrier id → s.pumping = true

theorem inv_start (input : List Record) : Inv (M := M) { input := input } :=
  ⟨⟨[], M.accounts_start, by simp [held]⟩, by simp⟩

variable {s t : SinkStage M} {a : StageAction M}

theorem inv_step (inv : s.Inv) (moves : s.step a = some t) : t.Inv := by
  obtain ⟨⟨received, accounts, whole⟩, feeding⟩ := inv
  cases a with simp only [step] at moves
  | receive =>
    split at moves
    next r rest now _ =>
      cases moves
      simp only [now, held, ne_eq, reduceCtorEq, not_false_eq_true, append_nil,
        forall_const] at whole
      simp only [accept]
      split
      next pumping =>
        split
        · exact ⟨⟨received, accounts, fun _ _ => by simpa [held] using whole pumping⟩,
            fun _ _ => pumping⟩
        · split
          · exact ⟨⟨received, accounts, fun _ _ => by simpa [now, held] using whole pumping⟩,
              by simp [now]⟩
          · exact ⟨⟨received, accounts, fun _ _ => by simp [held, whole pumping]⟩, by simp⟩
      next idle =>
        exact ⟨⟨received, accounts, fun pumping => absurd pumping idle⟩, by simp [now]⟩
    · cases moves
  | save ok =>
    split at moves
    next id now empty =>
      cases moves
      simp only [now, held] at whole
      exact ⟨⟨received, accounts, fun pumping _ => by simpa [held] using whole pumping (by simp)⟩,
        by simp⟩
    · cases moves
  | sinkReturned | stopPumping =>
    split at moves
    all_goals first | cases moves | skip
    all_goals
      obtain ⟨-, rfl⟩ := of_ite_some moves
      exact ⟨⟨received, accounts, by simp⟩, by simp⟩
  | push =>
    split at moves
    next r now =>
      obtain ⟨-, rfl⟩ := of_ite_some moves
      simp only [now, held] at whole
      exact ⟨⟨received, accounts, fun pumping _ => by
        simpa [held] using whole pumping (by simp)⟩, by simp⟩
    · cases moves
  | close =>
    split at moves
    next now _ =>
      cases moves
      simp only [now, held] at whole
      exact ⟨⟨received, accounts, fun pumping _ => by simpa [held] using whole pumping (by simp)⟩,
        by simp⟩
    · cases moves
  | ret =>
    split at moves
    · obtain ⟨-, rfl⟩ := of_ite_some moves
      exact ⟨⟨received, accounts, by simp⟩, by simp⟩
    · cases moves
  | hardCancel => exact some.inj moves ▸ ⟨⟨received, accounts, whole⟩, feeding⟩
  | sink a =>
    obtain ⟨⟨sink, pumped⟩, moved, rfl⟩ := map_eq_some_iff.1 moves
    obtain ⟨more, split, after⟩ := M.accounts_step accounts moved
    refine ⟨⟨received ++ more, after, fun pumping running => ?_⟩, feeding⟩
    simpa [split] using whole pumping running

theorem Inv.ahead_received {ok : Bool} (inv : s.Inv)
    (moves : s.step (.save ok) = some t) : M.Accounts s.sink s.ahead := by
  obtain ⟨⟨received, accounts, whole⟩, feeding⟩ := inv
  simp only [step] at moves
  split at moves
  next id now empty =>
    have all := whole (feeding id now) (by simp [now])
    simp only [now, empty, held, append_nil] at all
    exact all ▸ accounts
  · cases moves

theorem step_frame (moves : s.step a = some t) :
    (t.sink = s.sink ∧ (t.saved = s.saved ∨ ∃ ok, a = .save ok ∧ t.saved = s.saved ++ [s.ahead])) ∨
      ∃ action, a = .sink action ∧ t.saved = s.saved ∧
        M.step s.sink s.pumped s.shut s.cancelled action = some (t.sink, t.pumped) := by
  cases a with simp only [step] at moves
  | sink action =>
    obtain ⟨⟨sink, pumped⟩, moved, rfl⟩ := map_eq_some_iff.1 moves
    exact .inr ⟨action, rfl, rfl, moved⟩
  | save ok =>
    split at moves
    · cases moves
      cases ok with
      | true => exact .inl ⟨rfl, .inr ⟨true, rfl, rfl⟩⟩
      | false => exact .inl ⟨rfl, .inl rfl⟩
    · cases moves
  | receive =>
    split at moves
    · cases moves
      simp only [accept]
      refine .inl ?_
      split <;> [split <;> [skip; split]; skip] <;> exact ⟨rfl, .inl rfl⟩
    · cases moves
  | hardCancel => exact some.inj moves ▸ .inl ⟨rfl, .inl rfl⟩
  | _ =>
    refine .inl ?_
    split at moves
    all_goals first
      | cases moves; done
      | exact some.inj moves ▸ ⟨rfl, .inl rfl⟩
      | (split at moves <;> [exact some.inj moves ▸ ⟨rfl, .inl rfl⟩; cases moves])

structure Durable (s : SinkStage M) : Prop where
  inv : s.Inv
  delivered : ∀ records ∈ s.saved, M.Delivered s.sink records

theorem durable_step (durable : s.Durable)
    (idle : s.SavesIdle a) (moves : s.step a = some t) : t.Durable := by
  refine ⟨inv_step durable.inv moves, fun records mem => ?_⟩
  rcases step_frame moves with ⟨sink, same | ⟨ok, rfl, grown⟩⟩ | ⟨action, rfl, same, moved⟩
  · rw [sink]
    exact durable.delivered records (same ▸ mem)
  · rw [sink]
    rw [grown, mem_append, mem_singleton] at mem
    rcases mem with old | rfl
    · exact durable.delivered records old
    · exact (M.delivered_iff (durable.inv.ahead_received moves)).2 idle
  · obtain ⟨⟨received, accounts, -⟩, -⟩ := durable.inv
    exact M.delivered_step accounts moved (durable.delivered records (same ▸ mem))

end SinkStage

/-- At every save of every run, the records ahead of the barrier are at the destination
exactly when the sink is idle then; so in every run that saves checkpoints only while the
sink is idle, the records ahead of each saved barrier are at the destination. -/
theorem saved_checkpoint_delivered {τ : Type} (sink : PlainSink τ) (input : List Record) :
    (∀ s : SinkStage sink.model, Reach SinkStage.step Always { input := input } s →
      ∀ ok t, s.step (.save ok) = some t →
        (sink.model.Delivered s.sink s.ahead ↔ sink.model.Idle s.sink)) ∧
    ∀ s : SinkStage sink.model, Reach SinkStage.step SinkStage.SavesIdle { input := input } s →
      ∀ records ∈ s.saved, sink.model.Delivered s.sink records := by
  constructor
  · intro s reach ok t moves
    have inv : s.Inv := reach.invariant (SinkStage.inv_start input)
      fun _ _ _ inv _ moves => SinkStage.inv_step inv moves
    exact sink.model.delivered_iff (inv.ahead_received moves)
  · intro s reach
    have durable : s.Durable := reach.invariant ⟨SinkStage.inv_start input, by simp⟩
      fun _ _ _ durable idle moves => SinkStage.durable_step durable idle moves
    exact durable.delivered

def plainBatch (batchSize : Int) : PlainSink Record :=
  .batch { batchSize, flushInterval := 0, async := false, convert := .entry }

def recordAndBarrier : List Record := [{}, Record.newBarrier ⟨0, 1, .periodic⟩]

def atBarrier (sink : PlainSink Record) (moves : List (StageAction sink.model)) :
    List (StageAction sink.model) :=
  [.receive, .push] ++ moves ++ [.receive]

/-- With batches of one record, the record ahead of the barrier is flushed before the save. -/
theorem saved_checkpoint_delivered_flushed : ∃ s : SinkStage (plainBatch 1).model, s.ahead = [{}] ∧
      (plainBatch 1).model.Delivered s.sink s.ahead := by
  obtain ⟨s, reach, facts⟩ := Reach.exists_of_run (SinkStage.step (M := (plainBatch 1).model))
    { input := recordAndBarrier }
    (atBarrier (plainBatch 1) [.sink BatchAction.take, .sink BatchAction.add,
      .sink (BatchAction.flushed 0 true)])
    (fun s => decide (s.ahead = [{}] ∧ (s.step (.save true)).isSome ∧
      @BatchWriter.hand Record s.sink = [] ∧ (s.sink : BatchWriter Record).batch = [] ∧
      (s.sink : BatchWriter Record).flights = [] ∧ (s.sink : BatchWriter Record).lost = []))
    (by decide)
  obtain ⟨ahead, saves, hand, batch, flights, lost⟩ := of_decide_eq_true facts
  obtain ⟨t, moves⟩ := isSome_iff_exists.1 saves
  have fixed := (saved_checkpoint_delivered (plainBatch 1) recordAndBarrier).1 s reach true t moves
  refine ⟨s, ahead, fixed.2 ⟨fun r mem => ?_, batch, flights, lost⟩⟩
  simp [hand] at mem

/-- With batches of two records, the record ahead of the barrier is still in the batch when
the checkpoint is saved. -/
theorem buffered_record_not_delivered :
    ¬∀ s : SinkStage (plainBatch 2).model,
      Reach SinkStage.step Always { input := recordAndBarrier } s →
        ∀ records ∈ s.saved, (plainBatch 2).model.Delivered s.sink records := by
  intro always
  obtain ⟨s, reach, facts⟩ := Reach.exists_of_run (SinkStage.step (M := (plainBatch 2).model))
    { input := recordAndBarrier }
    (atBarrier (plainBatch 2) [.sink BatchAction.take, .sink BatchAction.add] ++ [.save true])
    (fun s => decide (s.saved = [[{}]] ∧ (s.sink : BatchWriter Record).written = [])) (by decide)
  obtain ⟨saved, written⟩ := of_decide_eq_true facts
  obtain ⟨-, there⟩ := always s reach [{}] (by simp [saved])
  rw [written] at there
  exact absurd (Multiset.card_le_card there) (by decide)

end Weibo.Pipeline
