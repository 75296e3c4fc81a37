import Weibo.Engine.CommitRuns

/-!
# What a finished run has committed

A coordinated run whose stream ends and whose calls all succeed. When `Write` returns the open
transaction is aborted, so what stays visible is the output ahead of the last barrier.
-/

namespace Weibo.Engine

open Checkpoint Sink List Option
open Marked (marks behind)
open Transition (Reach Always of_ite_some)
open Record (barrierID data_append)

variable {π ν : Type}

structure Delivery (π ν : Type) where
  rest : List Record
  uninjected : List CheckpointID
  upstream : List CheckpointID
  run : Coordinated π ν

inductive DeliveryAction (π ν : Type)
  | inject (offsets : Option π)
  | deliver (state : ν)
  | close
  | move (a : ProtocolAction π ν)
  | finish

namespace Delivery

def start (store : Storage π ν) (topic : Topic) (stream : List Record) : Delivery π ν :=
  ⟨stream, marks barrierID stream, [], .start store topic⟩

def step (cfg : TxnKafkaConfig) (d : Delivery π ν) : DeliveryAction π ν → Option (Delivery π ν)
  | .inject offsets =>
    match d.uninjected with
    | id :: rest => some { d with
        uninjected := rest
        upstream := d.upstream ++ [id]
        run := { d.run with coord := d.run.coord.onBarrierInjected id offsets } }
    | [] => none
  | .deliver state =>
    match d.rest with
    | r :: rest =>
      match r.barrierID, d.upstream with
      | none, _ => some { d with rest, run := { d.run with input := d.run.input ++ [r] } }
      | some id, first :: upstream =>
        if first = id then some { d with
          rest, upstream
          run := { d.run with
            coord := d.run.coord.onStateSnapshot id state
            input := d.run.input ++ [r] } }
        else none
      | some _, [] => none
    | [] => none
  | .close => if d.rest = [] then some { d with run := { d.run with closed := true } } else none
  | .move a =>
    if a.succeeds then (d.run.step cfg a).map fun run => { d with run } else none
  | .finish => (d.run.step cfg .finish).map fun run => { d with run }

variable {cfg : TxnKafkaConfig} {base : List TxnMessage} {stream : List Record}
  {first : Option (CheckpointData π ν)} {d e : Delivery π ν} {s t : Coordinated π ν}

structure Staging (cfg : TxnKafkaConfig) (arrived : List Record) (s : Coordinated π ν) : Prop where
  reading : s.sink.loop = .reading → ∀ taken, arrived = taken ++ s.input →
    s.sink.staged.map some = (Record.data (behind barrierID taken)).map cfg.message
  signalled : ∀ id, s.sink.loop = .waiting id → id ∉ s.sink.waiters → s.sink.staged = []

theorem Staging.behind_taken {feed : Feed π ν} {r : Record} {rest taken : List Record}
    (staging : Staging cfg feed.arrived s) (carried : s.Carried feed)
    (reading : s.sink.loop = .reading) (next : s.input = r :: rest)
    (split : feed.arrived = taken ++ rest) :
    ∃ before, taken = before ++ [r] ∧
      s.sink.staged.map some = (Record.data (behind barrierID before)).map cfg.message := by
  obtain ⟨before, whole, -, -⟩ := carried.taken
  have same : taken ++ rest = before ++ [r] ++ rest := by
    rw [← split, whole, next, append_assoc, singleton_append]
  exact ⟨before, append_cancel_right same, staging.reading reading before whole⟩

theorem Staging.next {feed : Feed π ν} (staging : Staging cfg feed.arrived s)
    (smooth : s.Smooth cfg base) (carried : s.Carried feed) (progress : s.Progress cfg t) :
    Staging cfg feed.arrived t := by
  cases progress with
  | watermark r rest reading next marker plain =>
    refine ⟨fun _ taken split => ?_, staging.signalled⟩
    obtain ⟨before, rfl, held⟩ := staging.behind_taken carried reading next split
    rw [held, Marked.behind_append_unmarked plain, data_append,
      Record.data_singleton_marker marker, append_nil]
  | produce r rest message reading next isData written =>
    refine ⟨fun _ taken split => ?_, fun id waiting => by simp [reading] at waiting⟩
    obtain ⟨before, rfl, held⟩ := staging.behind_taken carried reading next split
    rw [map_append, held, Marked.behind_append_unmarked (Record.barrierID_of_data isData),
      data_append, Record.data_singleton isData, map_append]
    simp [written]
  | flush r rest id reading next barrier =>
    exact ⟨fun busy => by simp [TxnKafkaSink.prepare] at busy,
      fun id busy => by simp [TxnKafkaSink.prepare] at busy⟩
  | notify id notifying => exact ⟨fun busy => by simp at busy, fun id busy => by simp at busy⟩
  | send id sending empty =>
    refine ⟨fun busy => by simp at busy, fun other busy absent => ?_⟩
    obtain rfl : id = other := by simpa using busy
    exact absurd (smooth.protocol.registered id (.inr sending)) absent
  | resume id waiting signalled =>
    refine ⟨fun _ taken split => ?_, fun id busy => by simp at busy⟩
    obtain ⟨before, whole, -, stops⟩ := carried.taken
    obtain rfl : taken = before := append_cancel_right (split.symm.trans whole)
    obtain ⟨ahead, r, rfl, barrier⟩ := stops id (.inr (.inr waiting))
    simp [staging.signalled id waiting signalled, Marked.behind_append_marked barrier]
  | dequeue id p idle waiting events found | persist id p working waiting
  | complete id p store working updated | offsets id p working =>
    exact ⟨staging.reading, staging.signalled⟩
  | commit id p working waiting =>
    refine ⟨fun reading => ?_, fun _ _ _ => rfl⟩
    have busy : s.sink.loop = .reading := reading
    simp [waiting] at busy

theorem Staging.arrive {arrived : List Record} (staging : Staging cfg arrived s)
    (split : ∃ taken, arrived = taken ++ s.input) (coord : Coordinator π ν) (r : Record) :
    Staging cfg (arrived ++ [r]) { s with input := s.input ++ [r], coord } := by
  obtain ⟨taken, whole⟩ := split
  refine ⟨fun reading before same => ?_, staging.signalled⟩
  rw [whole, append_assoc] at same
  obtain rfl := append_cancel_right same
  exact staging.reading reading _ whole

structure Running (cfg : TxnKafkaConfig) (base : List TxnMessage)
    (first : Option (CheckpointData π ν)) (stream : List Record) (d : Delivery π ν) : Prop where
  arrived : ∃ arrived last, stream = arrived ++ d.rest ∧
    d.run.Tracked cfg base first ⟨arrived, d.upstream, fun _ _ => True, fun _ _ => True⟩ last ∧
    Staging cfg arrived d.run
  pending : marks barrierID d.rest = d.upstream ++ d.uninjected
  undecided : ∀ id ∈ d.uninjected, ¬d.run.Decided id
  closed : d.run.closed = true → d.rest = []

/-- `Write` has returned, and what is ahead of the last barrier is visible. -/
structure Finished (cfg : TxnKafkaConfig) (base : List TxnMessage) (stream : List Record)
    (d : Delivery π ν) : Prop where
  returned : d.run.sink.loop = .returned
  empty : d.run.coord.events = []
  decided : d.run.coord.worker.undecided = none
  visible : ∀ front, front ++ behind barrierID stream = stream →
    Coordinated.Written cfg base (Record.data front) d.run.topic.visible

theorem running_start {store : Storage π ν} {topic : Topic} (agrees : Agrees store topic first)
    (settled : Settled store topic first)
    (fresh : ∀ id ∈ marks barrierID stream, ¬(Coordinated.start store topic).Decided id) :
    Running cfg topic.visible first stream (start store topic stream) := by
  refine ⟨⟨[], first, rfl, Coordinated.tracked_start agrees settled _ rfl rfl, ?_⟩, rfl, fresh,
    by simp [start, Coordinated.start]⟩
  refine ⟨fun _ taken split => ?_, by simp [start, Coordinated.start]⟩
  obtain ⟨rfl, -⟩ := append_eq_nil_iff.1 split.symm
  rfl

theorem Running.inject (running : Running cfg base first stream d)
    (distinct : (marks barrierID stream).Nodup) {offsets : Option π}
    (moves : d.step cfg (.inject offsets) = some e) : Running cfg base first stream e := by
  obtain ⟨⟨arrived, last, split, tracked, staging⟩, pending, undecided, closed⟩ := running
  simp only [step] at moves
  split at moves
  next id rest next =>
    cases moves
    rw [split, Marked.marks_append, pending, next] at distinct
    have apart : id ∉ marks barrierID arrived ++ d.upstream := by
      rw [← append_assoc] at distinct
      have fresh := (nodup_append.1 distinct).2.2
      exact fun inside => fresh id inside id mem_cons_self rfl
    have injected := tracked.inject offsets
      ⟨arrived, d.upstream ++ [id], fun _ _ => True, fun _ _ => True⟩ rfl rfl apart
      (undecided id (by simp [next])) (fun _ _ _ _ => trivial) (fun _ _ _ _ => trivial) trivial
    refine ⟨⟨arrived, last, split, injected, staging.reading, staging.signalled⟩, ?_, ?_, closed⟩
    · simp [pending, next]
    · exact fun other mem => undecided other (by simp [next, mem])
  · cases moves

theorem Running.deliver (running : Running cfg base first stream d) {state : ν}
    (moves : d.step cfg (.deliver state) = some e) : Running cfg base first stream e := by
  obtain ⟨⟨arrived, last, split, tracked, staging⟩, pending, undecided, closed⟩ := running
  have taken : ∃ taken, arrived = taken ++ d.run.input := by
    obtain ⟨taken, whole, -⟩ := tracked.carried.taken
    exact ⟨taken, whole⟩
  simp only [step] at moves
  split at moves
  next r rest next =>
    have whole : stream = arrived ++ [r] ++ rest := by simp [split, next]
    have ended : d.run.closed = true → rest = [] := fun shut => by
      simpa [next] using closed shut
    split at moves
    next plain =>
      cases moves
      refine ⟨⟨arrived ++ [r], last, whole, tracked.arrive plain, staging.arrive taken _ r⟩, ?_,
        undecided, ended⟩
      rw [next, marks, filterMap_cons_none plain] at pending
      exact pending
    next id head upstream barrier injected =>
      split at moves
      next same =>
        subst same
        cases moves
        refine ⟨⟨arrived ++ [r], last, whole, tracked.tap barrier injected state trivial,
          staging.arrive taken _ r⟩, ?_, undecided, ended⟩
        rw [next, injected, ← singleton_append, Marked.marks_append,
          Marked.marks_singleton barrier] at pending
        simpa using pending
      · cases moves
    · cases moves
  · cases moves

theorem Running.move (running : Running cfg base first stream d) (distinct :
    (marks barrierID stream).Nodup) (total : ∀ r, (cfg.message r).isSome) {a : ProtocolAction π ν}
    (moves : d.step cfg (.move a) = some e) : Running cfg base first stream e := by
  obtain ⟨⟨arrived, last, split, tracked, staging⟩, pending, undecided, closed⟩ := running
  simp only [step] at moves
  split at moves
  next succeeds =>
    obtain ⟨run, stepped, rfl⟩ := map_eq_some_iff.1 moves
    obtain ⟨⟨later, next⟩, new⟩ := tracked.next total succeeds stepped
    have progress := tracked.progress total succeeds stepped
    refine ⟨⟨arrived, later, split, next, staging.next tracked.smooth tracked.carried progress⟩,
      pending, fun id mem decided => ?_, fun shut => closed (progress.closed ▸ shut)⟩
    rcases new id decided with old | inside
    · exact undecided id mem old
    · rw [split, Marked.marks_append, pending] at distinct
      exact (nodup_append.1 distinct).2.2 id inside id (by simp [mem]) rfl
  · cases moves

theorem Running.finish (running : Running cfg base first stream d)
    (moves : d.step cfg .finish = some e) : Finished cfg base stream e := by
  obtain ⟨⟨arrived, last, split, tracked, staging⟩, -, -, closed⟩ := running
  simp only [step, Coordinated.step, Coordinated.finish] at moves
  split at moves
  next guard =>
    obtain ⟨reading, drained, shut⟩ := guard
    cases moves
    obtain ⟨smooth, carried, -⟩ := tracked
    obtain ⟨empty, decided⟩ := smooth.protocol.idle smooth.runs (by simp [reading])
    refine ⟨rfl, empty, decided, fun front whole => ?_⟩
    rw [closed shut, append_nil] at split
    subst split
    obtain ⟨taken, all, ahead, -⟩ := carried.taken
    rw [drained, append_nil] at all
    have held := staging.reading reading stream (by simp [drained])
    obtain ⟨messages, written, output⟩ := smooth.protocol.ledger smooth.healthy smooth.runs
    have cut : (Record.data front).map cfg.message ++ d.run.sink.staged.map some =
        messages.map some := by
      rw [held, ← map_append, ← data_append, whole, ← written, ahead, ← all]
    obtain ⟨shown, going, rfl, visible, staged⟩ := map_eq_append_iff.1 cut.symm
    obtain rfl := map_injective_iff.2 (some_injective _) staged
    rw [← append_assoc] at output
    exact ⟨shown, visible.symm, append_cancel_right output⟩
  · cases moves

theorem Finished.step (finished : Finished cfg base stream d) {a : DeliveryAction π ν}
    (moves : d.step cfg a = some e) : Finished cfg base stream e := by
  obtain ⟨returned, empty, decided, visible⟩ := finished
  cases a with simp only [Delivery.step] at moves
  | inject offsets | close =>
    split at moves
    · cases moves
      exact ⟨returned, empty, decided, visible⟩
    · cases moves
  | deliver state =>
    split at moves
    · split at moves
      · cases moves
        exact ⟨returned, empty, decided, visible⟩
      · obtain ⟨-, rfl⟩ := of_ite_some moves
        exact ⟨returned, empty, decided, visible⟩
      · cases moves
    · cases moves
  | finish => simp [Coordinated.step, Coordinated.finish, returned] at moves
  | move a =>
    split at moves
    next succeeds =>
      obtain ⟨run, stepped, rfl⟩ := map_eq_some_iff.1 moves
      cases a with
      | complete saved =>
        simp only [Coordinated.step, Coordinated.complete] at stepped
        split at stepped
        · split at stepped
          · cases stepped
            exact ⟨returned, empty, rfl, visible⟩
          · cases stepped
            exact ⟨returned, empty, rfl, visible⟩
        · cases stepped
      | commitOffsets =>
        simp only [Coordinated.step, Coordinated.commitOffsets] at stepped
        split at stepped
        · cases stepped
          exact ⟨returned, empty, rfl, visible⟩
        · cases stepped
      | dequeue =>
        simp [Coordinated.step, Coordinated.dequeue, Coordinator.dequeue, empty] at stepped
      | persist saved =>
        simp only [Coordinated.step, Coordinated.persist] at stepped
        split at stepped
        next working =>
          simp [working, FinalizeLoop.undecided] at decided
        · cases stepped
      | commit outcome =>
        simp only [Coordinated.step, Coordinated.commit] at stepped
        split at stepped
        next working =>
          simp [working, FinalizeLoop.undecided] at decided
        · cases stepped
      | receive sent => simp [Coordinated.step, Coordinated.receive, returned] at stepped
      | flush flushed => simp [Coordinated.step, Coordinated.flush, returned] at stepped
      | notify => simp [Coordinated.step, Coordinated.notify, returned] at stepped
      | send => simp [Coordinated.step, Coordinated.send, returned] at stepped
      | resume => simp [Coordinated.step, Coordinated.resume, returned] at stepped
      | injected _ _ | snapshotted _ _ | arrive _ | close | unwind | finish | abort _ | report
      | relay | cancel | leave | hardCancel | stop => cases succeeds
    · cases moves

theorem Running.step (running : Running cfg base first stream d)
    (distinct : (marks barrierID stream).Nodup) (total : ∀ r, (cfg.message r).isSome)
    {a : DeliveryAction π ν} (moves : d.step cfg a = some e) :
    Running cfg base first stream e ∨ Finished cfg base stream e := by
  cases a with
  | inject offsets => exact .inl (running.inject distinct moves)
  | deliver state => exact .inl (running.deliver moves)
  | move a => exact .inl (running.move distinct total moves)
  | finish => exact .inr (running.finish moves)
  | close =>
    obtain ⟨ended, rfl⟩ := Transition.of_ite_some moves
    obtain ⟨arrived, last, split, tracked, staging⟩ := running.arrived
    exact .inl ⟨⟨arrived, last, split, tracked.close, staging.reading, staging.signalled⟩,
      running.pending, running.undecided, fun _ => ended⟩

theorem finished_of_reach {store : Storage π ν} {topic : Topic} (agrees : Agrees store topic first)
    (settled : Settled store topic first)
    (fresh : ∀ id ∈ marks barrierID stream, ¬(Coordinated.start store topic).Decided id)
    (distinct : (marks barrierID stream).Nodup) (total : ∀ r, (cfg.message r).isSome)
    (reach : Reach (Delivery.step cfg) Always (start store topic stream) d)
    (returned : d.run.sink.loop = .returned) : Finished cfg topic.visible stream d := by
  have state : Running cfg topic.visible first stream d ∨ Finished cfg topic.visible stream d := by
    clear returned
    induction reach with
    | refl => exact .inl (running_start agrees settled fresh)
    | tail a _ _ moves state =>
      rcases state with running | finished
      · exact running.step distinct total moves
      · exact .inr (finished.step moves)
  rcases state with running | finished
  · obtain ⟨arrived, last, -, tracked, -⟩ := running.arrived
    exact absurd returned tracked.smooth.runs
  · exact finished

end Delivery

end Weibo.Engine
