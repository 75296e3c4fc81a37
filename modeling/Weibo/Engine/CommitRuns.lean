import Weibo.Engine.Recovery

/-!
# Coordinated runs without failing calls

A run in which every call to the broker and the storage succeeds, up to a crash, moves the
checkpoint committed last from barrier to barrier. At every step storage and topic agree on which
one that is, and the visible output is the output ahead of its barrier.
-/

namespace Weibo.Engine

open Checkpoint Sink List Option AList
open Marked (marks marks_append marks_singleton)
open Coordinator (enqueue ensure onSinkPrepared onStateSnapshot preparedData)
open Record (barrierID data_append isMarker)

variable {π ν : Type}

def ProtocolAction.succeeds : ProtocolAction π ν → Bool
  | .receive sent => sent
  | .flush flushed => flushed
  | .persist saved => saved
  | .commit outcome => outcome = .done
  | .complete saved => saved
  | .notify | .send | .resume | .dequeue | .commitOffsets => true
  | _ => false

namespace Coordinated

variable {cfg : TxnKafkaConfig} {base : List TxnMessage} {s t : Coordinated π ν}

structure Smooth (cfg : TxnKafkaConfig) (base : List TxnMessage) (s : Coordinated π ν) :
    Prop where
  protocol : s.Inv cfg base
  healthy : s.Healthy
  runs : s.sink.loop ≠ .returned
  unhalted : s.coord.halted = false
  flushed : ∀ id failed, s.sink.loop = .notifying id failed → failed = false
  answered : ∀ id p, s.sink.loop = .sending id ∨ id ∈ s.coord.events →
    s.coord.pending.lookup id = some p → p.sinkErr = false
  reports : s.coord.worker ≠ .report
  aborts : ∀ id, s.coord.worker ≠ .abort id

inductive Progress (cfg : TxnKafkaConfig) (s : Coordinated π ν) : Coordinated π ν → Prop
  | watermark (r : Record) (rest : List Record) (reading : s.sink.loop = .reading)
      (next : s.input = r :: rest) (marker : r.isMarker = true) (plain : r.barrierID = none) :
      Progress cfg s { s with input := rest }
  | produce (r : Record) (rest : List Record) (message : TxnMessage)
      (reading : s.sink.loop = .reading) (next : s.input = r :: rest)
      (isData : r.isMarker = false) (written : cfg.message r = some message) :
      Progress cfg s { s with
        input := rest
        sink := { s.sink with staged := s.sink.staged ++ [message] }
        ahead := s.ahead ++ [r] }
  | flush (r : Record) (rest : List Record) (id : CheckpointID) (reading : s.sink.loop = .reading)
      (next : s.input = r :: rest) (barrier : r.barrierID = some id) :
      Progress cfg s { s with input := rest, sink := s.sink.prepare id true }
  | notify (id : CheckpointID) (notifying : s.sink.loop = .notifying id false) :
      Progress cfg s { s with
        coord := s.coord.onSinkPrepared id false
        sink := { s.sink with loop := .sending id } }
  | send (id : CheckpointID) (sending : s.sink.loop = .sending id)
      (empty : s.coord.events = []) :
      Progress cfg s { s with
        coord := { s.coord with events := [id] }
        sink := { s.sink with loop := .waiting id } }
  | resume (id : CheckpointID) (waiting : s.sink.loop = .waiting id)
      (signalled : id ∉ s.sink.waiters) :
      Progress cfg s { s with sink := { s.sink with loop := .reading } }
  | dequeue (id : CheckpointID) (p : PendingCheckpoint π ν) (idle : s.coord.worker = .idle)
      (waiting : s.sink.loop = .waiting id) (events : s.coord.events = [id])
      (found : s.coord.pending.lookup id = some p) :
      Progress cfg s { s with coord := { s.coord with
        events := []
        pending := s.coord.pending.erase id
        worker := .persist id p } }
  | persist (id : CheckpointID) (p : PendingCheckpoint π ν)
      (working : s.coord.worker = .persist id p) (waiting : s.sink.loop = .waiting id) :
      Progress cfg s { s.work (.commit id p) with
        store := s.store.save (preparedData id p)
        log := s.log ++ [.prepared id] }
  | commit (id : CheckpointID) (p : PendingCheckpoint π ν)
      (working : s.coord.worker = .commit id p) (waiting : s.sink.loop = .waiting id) :
      Progress cfg s { (s.work (.complete id p)).nextTransaction id with
        topic := s.sink.publish s.topic
        log := s.log ++ [.committed id s.ahead] }
  | complete (id : CheckpointID) (p : PendingCheckpoint π ν) (store : Storage π ν)
      (working : s.coord.worker = .complete id p)
      (updated : s.store.updateStatus id .completed = some store) :
      Progress cfg s { s.work (.offsets id p) with store, log := s.log ++ [.completed id] }
  | offsets (id : CheckpointID) (p : PendingCheckpoint π ν)
      (working : s.coord.worker = .offsets id p) : Progress cfg s (s.work .idle)

theorem Smooth.progress (smooth : s.Smooth cfg base) (total : ∀ r, (cfg.message r).isSome)
    (stored : ∀ id p, s.coord.worker = .complete id p → (s.store.updateStatus id .completed).isSome)
    {action : ProtocolAction π ν} (succeeds : action.succeeds = true)
    (moves : step cfg s action = some t) : Progress cfg s t := by
  have inv := smooth.protocol
  have waits : ∀ id, s.Outstanding id → s.sink.loop = .waiting id := fun id outstanding =>
    (inv.awaited id outstanding).resolve_right smooth.runs
  cases action with
  | receive sent =>
    simp only [step, Coordinated.receive] at moves
    split at moves
    case h_2 => cases moves
    case h_1 r rest reading next =>
      split at moves
      next watermark =>
        cases moves
        exact .watermark r rest reading next (by simp [isMarker, watermark])
          (by simp [barrierID, watermark])
      next plain =>
        split at moves
        · cases moves
        next guard =>
          cases moves
          obtain ⟨message, written⟩ := isSome_iff_exists.1 (total r)
          have sent' : sent = true := succeeds
          have isData : r.isMarker = false := by
            simp [isMarker, guard, plain]
          have same : s.sink.produce (cfg.message r) sent =
              { s.sink with staged := s.sink.staged ++ [message] } := by
            simp [TxnKafkaSink.produce, written, sent']
          rw [same]
          exact .produce r rest message reading next isData written
  | flush flushed =>
    simp only [step, Coordinated.flush] at moves
    split at moves
    case h_2 => cases moves
    case h_1 r rest reading next =>
      split at moves
      · cases moves
      next guard =>
        obtain ⟨id, barrier, rfl⟩ := map_eq_some_iff.1 moves
        have flushed' : flushed = true := succeeds
        subst flushed'
        refine .flush r rest id reading next ?_
        simp only [not_or, not_not] at guard
        simp [barrierID, guard.1, guard.2, barrier]
  | notify =>
    simp only [step, Coordinated.notify] at moves
    split at moves
    case h_2 => cases moves
    case h_1 id failed notifying =>
      cases moves
      obtain rfl := smooth.flushed id failed notifying
      exact .notify id notifying
  | send =>
    simp only [step, Coordinated.send] at moves
    split at moves
    case h_2 => cases moves
    case h_1 id sending =>
      obtain ⟨coord, queued, rfl⟩ := map_eq_some_iff.1 moves
      have empty := (inv.idle smooth.runs (by simp [sending])).1
      rw [enqueue, if_neg (by simp [smooth.unhalted]),
        if_pos (by simp [empty, eventBuf])] at queued
      cases queued
      rw [empty, nil_append]
      exact .send id sending empty
  | resume =>
    simp only [step, Coordinated.resume] at moves
    split at moves
    case h_2 => cases moves
    case h_1 id waiting =>
      split at moves
      · cases moves
      next signalled =>
        cases moves
        exact .resume id waiting signalled
  | dequeue =>
    obtain ⟨coord, taken, rfl⟩ := map_eq_some_iff.1 moves
    unfold Coordinator.dequeue at taken
    split at taken
    case h_2 => cases taken
    case h_1 id rest idle events =>
      have last : rest = [] := by
        have single := inv.single
        rw [events] at single
        simpa using single
      subst last
      have queued : id ∈ s.coord.events := by simp [events]
      obtain ⟨p, found, -⟩ := inv.answered id (.inr queued)
      have fine := smooth.answered id p (.inr queued) found
      rw [if_neg (by simp [smooth.unhalted])] at taken
      simp only [found, fine, Bool.false_eq_true, if_false, some.injEq] at taken
      subst taken
      exact .dequeue id p idle (waits id (.inl queued)) events found
  | persist saved =>
    simp only [step, Coordinated.persist] at moves
    split at moves
    case h_2 => cases moves
    case h_1 id p working =>
      have saved' : saved = true := succeeds
      simp only [saved', if_true, some.injEq] at moves
      subst moves
      exact .persist id p working (waits id (.inr (by rw [working]; rfl)))
  | commit outcome =>
    simp only [step, Coordinated.commit] at moves
    split at moves
    case h_2 => cases moves
    case h_1 id p working =>
      have done : outcome = .done := of_decide_eq_true succeeds
      subst done
      simp only [reduceCtorEq, if_false, smooth.runs, if_true, some.injEq] at moves
      subst moves
      exact .commit id p working (waits id (.inr (by rw [working]; rfl)))
  | complete saved =>
    simp only [step, Coordinated.complete] at moves
    split at moves
    case h_2 => cases moves
    case h_1 id p working =>
      have saved' : saved = true := succeeds
      obtain ⟨store, updated⟩ := isSome_iff_exists.1 (stored id p working)
      simp only [saved', updated, some.injEq] at moves
      subst moves
      exact .complete id p store working updated
  | commitOffsets =>
    simp only [step, Coordinated.commitOffsets] at moves
    split at moves
    case h_2 => cases moves
    case h_1 id p working =>
      cases moves
      exact .offsets id p working
  | injected _ _ | snapshotted _ _ | arrive _ | close | unwind | finish | abort _ | report | relay
  | cancel | leave | hardCancel | stop => cases succeeds

theorem Healthy.record {event : ProtocolEvent} (healthy : s.Healthy)
    (progress : event.isAbort = false) (log : t.log = s.log ++ [event])
    (fine : t.sink.produceErr = false) : t.Healthy := by
  refine ⟨?_, fine⟩
  rintro ⟨other, inside, abort⟩
  rw [log] at inside
  rcases mem_append.1 inside with old | new
  · exact healthy.1 ⟨other, old, abort⟩
  · rw [mem_singleton.1 new, progress] at abort
    cases abort

theorem Smooth.next (smooth : s.Smooth cfg base) (progress : Progress cfg s t)
    (inv : t.Inv cfg base) : t.Smooth cfg base := by
  cases progress with
  | watermark r rest reading next marker plain
  | produce r rest message reading next isData written =>
    exact { smooth with protocol := inv }
  | flush r rest id reading next barrier =>
    refine { smooth with protocol := inv, runs := by simp [TxnKafkaSink.prepare], flushed := ?_,
                         answered := ?_ }
    · intro other failed notifying
      have fine := smooth.healthy.2
      simp [TxnKafkaSink.prepare, fine] at notifying
      exact notifying.2
    · rintro other p (sending | queued) found
      · simp [TxnKafkaSink.prepare] at sending
      · exact smooth.answered other p (.inr queued) found
  | notify id notifying =>
    refine { smooth with protocol := inv, runs := by simp, flushed := by simp, answered := ?_ }
    intro other p busy found
    have empty := (smooth.protocol.idle smooth.runs (by simp [notifying])).1
    have same : id = other := by simpa [onSinkPrepared, empty] using busy
    subst same
    simp only [onSinkPrepared, lookup_insert, some.injEq] at found
    rw [← found]
  | send id sending empty =>
    refine { smooth with protocol := inv, runs := by simp, flushed := by simp, answered := ?_ }
    intro other p busy found
    have same : other = id := by simpa using busy
    subst same
    exact smooth.answered other p (.inl sending) found
  | resume id waiting signalled =>
    refine { smooth with protocol := inv, runs := by simp, flushed := by simp, answered := ?_ }
    rintro other p (busy | queued) found
    · cases busy
    · exact smooth.answered other p (.inr queued) found
  | dequeue id p idle waiting events found =>
    refine { smooth with protocol := inv, answered := ?_, reports := by simp, aborts := by simp }
    rintro other q (busy | queued) -
    · simp [waiting] at busy
    · cases queued
  | persist id p working waiting | complete id p store working updated =>
    exact { smooth with
      protocol := inv
      healthy := smooth.healthy.record rfl rfl smooth.healthy.2
      reports := by simp [work]
      aborts := by simp [work] }
  | commit id p working waiting =>
    exact { smooth with
      protocol := inv
      healthy := smooth.healthy.record rfl rfl rfl
      reports := by simp [work, nextTransaction]
      aborts := by simp [work, nextTransaction] }
  | offsets id p working =>
    exact { smooth with protocol := inv, reports := by simp [work], aborts := by simp [work] }

end Coordinated

/-! ## The stream and what is registered for it -/

structure Feed (π ν : Type) where
  arrived : List Record
  upstream : List CheckpointID
  positions : CheckpointID → Option π → Prop
  state : CheckpointID → Option ν → Prop

def holds : FinalizeLoop π ν → Option (CheckpointID × PendingCheckpoint π ν)
  | .persist id p | .commit id p | .complete id p => some (id, p)
  | .idle | .offsets _ _ | .abort _ | .report => none

namespace Coordinated

def queued (s : Coordinated π ν) : List CheckpointID :=
  match s.sink.loop with
  | .notifying id _ | .sending id => [id]
  | _ => s.coord.events

def unsaved (s : Coordinated π ν) : List CheckpointID :=
  match s.coord.worker with
  | .persist id _ => [id]
  | _ => []

def AtBarrier (s : Coordinated π ν) (id : CheckpointID) : Prop :=
  (∃ failed, s.sink.loop = .notifying id failed) ∨ s.sink.loop = .sending id ∨
    s.sink.loop = .waiting id

def openMarkers (s : Coordinated π ν) : List CheckpointID :=
  match s.sink.loop with
  | .notifying id _ | .sending id => [id]
  | .waiting id => if id ∈ s.sink.waiters then [id] else []
  | .reading | .returned => []

def Decided (s : Coordinated π ν) (id : CheckpointID) : Prop :=
  (∃ data ∈ s.store, data.id = id) ∨ id ∈ s.topic.markers

structure Carried (feed : Feed π ν) (s : Coordinated π ν) : Prop where
  distinct : (marks barrierID feed.arrived ++ feed.upstream).Nodup
  taken : ∃ taken, feed.arrived = taken ++ s.input ∧ s.ahead = Record.data taken ∧
    ∀ id, s.AtBarrier id → ∃ before r, taken = before ++ [r] ∧ r.barrierID = some id
  marked : s.sink.stagedMarkers = s.openMarkers
  decided : ∀ id, s.Decided id →
    id ∉ marks barrierID s.input ∧ id ∉ feed.upstream ∧ id ∉ s.queued ∧ id ∉ s.unsaved
  positions : ∀ id, id ∈ s.queued ∨ id ∈ marks barrierID s.input ∨ id ∈ feed.upstream →
    ∃ p, s.coord.pending.lookup id = some p ∧ feed.positions id p.offsets
  states : ∀ id p, id ∈ s.queued ∨ id ∈ marks barrierID s.input →
    s.coord.pending.lookup id = some p → feed.state id p.state
  holding : ∀ id p, holds s.coord.worker = some (id, p) →
    id ∈ marks barrierID feed.arrived ∧ feed.positions id p.offsets ∧ feed.state id p.state

variable {feed : Feed π ν} {cfg : TxnKafkaConfig} {base : List TxnMessage} {s t : Coordinated π ν}

variable {id : CheckpointID}

theorem Carried.behind (carried : s.Carried feed) (here : s.AtBarrier id) :
    id ∉ marks barrierID s.input ∧ id ∉ feed.upstream := by
  obtain ⟨taken, split, -, stops⟩ := carried.taken
  obtain ⟨before, r, rfl, barrier⟩ := stops id here
  have distinct := carried.distinct
  rw [split, marks_append, marks_append, marks_singleton barrier] at distinct
  simp only [append_assoc, singleton_append] at distinct
  have apart := (nodup_cons.1 (nodup_append.1 distinct).2.1).1
  exact ⟨fun inside => apart (mem_append_left _ inside),
    fun inside => apart (mem_append_right _ inside)⟩

theorem Carried.received (carried : s.Carried feed) (here : s.AtBarrier id) :
    id ∈ marks barrierID feed.arrived ∧
    s.ahead = Record.data (Marked.ahead barrierID id feed.arrived) := by
  obtain ⟨taken, split, received, stops⟩ := carried.taken
  obtain ⟨before, r, rfl, barrier⟩ := stops id here
  have present : id ∈ marks barrierID (before ++ [r]) := by
    rw [marks_append, marks_singleton barrier]
    exact mem_append_right _ (mem_singleton_self _)
  have absent : id ∉ marks barrierID before := by
    have distinct := (nodup_append.1 carried.distinct).1
    rw [split, marks_append, marks_append, marks_singleton barrier] at distinct
    have apart := (nodup_append.1 (nodup_append.1 distinct).1).2.2
    exact fun inside => apart id inside id (mem_singleton_self _) rfl
  rw [split, Marked.ahead_append_of_mem present, Marked.ahead_append_marked absent barrier,
    received,
    data_append, Record.data_singleton_marker (Record.isMarker_of_barrierID barrier),
    append_nil]
  exact ⟨by rw [marks_append]; exact mem_append_left _ present, rfl⟩

theorem Carried.reading (carried : s.Carried feed) (smooth : s.Smooth cfg base)
    (reading : s.sink.loop = .reading) :
    s.queued = [] ∧ s.unsaved = [] ∧ s.sink.stagedMarkers = [] := by
  obtain ⟨empty, undecided⟩ := smooth.protocol.idle smooth.runs (by simp [reading])
  refine ⟨by simp [queued, reading, empty], ?_, by simp [carried.marked, openMarkers, reading]⟩
  cases working : s.coord.worker with
  | persist id p => simp [working, FinalizeLoop.undecided] at undecided
  | idle | commit _ _ | complete _ _ | offsets _ _ | abort _ | report => simp [unsaved, working]

variable {r : Record}

theorem Carried.take (carried : s.Carried feed) {rest : List Record}
    (reading : s.sink.loop = .reading) (next : s.input = r :: rest) (plain : r.barrierID = none)
    (staged : List TxnMessage) (ahead : List Record) (same : ahead = s.ahead ++ Record.data [r]) :
    Carried feed { s with input := rest, sink := { s.sink with staged }, ahead } := by
  have marks_rest : marks barrierID s.input = marks barrierID rest := by
    simp [next, marks, plain]
  obtain ⟨taken, split, received, -⟩ := carried.taken
  refine ⟨carried.distinct, ⟨taken ++ [r], ?_, ?_, ?_⟩, carried.marked, ?_, ?_, ?_, carried.holding⟩
  · rw [split, next, append_assoc, singleton_append]
  · rw [same, received, data_append]
  · rintro id (⟨_, busy⟩ | busy | busy) <;> simp [reading] at busy
  · intro id stored
    have before := carried.decided id stored
    rw [marks_rest] at before
    exact before
  · intro id inside
    rw [← marks_rest] at inside
    exact carried.positions id inside
  · intro id p inside
    rw [← marks_rest] at inside
    exact carried.states id p inside

theorem Carried.flush (carried : s.Carried feed) (smooth : s.Smooth cfg base)
    {rest : List Record} (reading : s.sink.loop = .reading)
    (next : s.input = r :: rest) (barrier : r.barrierID = some id) :
    Carried feed { s with input := rest, sink := s.sink.prepare id true } := by
  obtain ⟨queued_nil, unsaved_nil, unmarked⟩ := carried.reading smooth reading
  have marks_input : marks barrierID s.input = id :: marks barrierID rest := by
    simp [next, marks, barrier]
  obtain ⟨taken, split, received, -⟩ := carried.taken
  refine ⟨carried.distinct, ⟨taken ++ [r], ?_, ?_, ?_⟩, ?_, ?_, ?_, ?_, carried.holding⟩
  · rw [split, next, append_assoc, singleton_append]
  · rw [data_append, Record.data_singleton_marker (Record.isMarker_of_barrierID barrier),
      append_nil]
    exact received
  · intro other here
    have same : id = other := by simpa [AtBarrier, TxnKafkaSink.prepare] using here
    exact ⟨taken, r, rfl, same ▸ barrier⟩
  · simp [TxnKafkaSink.prepare, openMarkers, unmarked]
  · intro other stored
    obtain ⟨ahead, upstream, -, -⟩ := carried.decided other stored
    rw [marks_input, mem_cons, not_or] at ahead
    refine ⟨ahead.2, upstream, ?_, ?_⟩
    · simpa [queued, TxnKafkaSink.prepare] using ahead.1
    · exact unsaved_nil ▸ not_mem_nil
  · intro other inside
    apply carried.positions other
    rw [marks_input, mem_cons]
    simp only [queued, TxnKafkaSink.prepare, mem_singleton] at inside
    tauto
  · intro other p inside
    apply carried.states other p
    rw [marks_input, mem_cons]
    simp only [queued, TxnKafkaSink.prepare, mem_singleton] at inside
    tauto

theorem Carried.notify (carried : s.Carried feed) (notifying : s.sink.loop = .notifying id false) :
    Carried feed { s with
      coord := s.coord.onSinkPrepared id false
      sink := { s.sink with loop := .sending id } } := by
  have queued_eq : s.queued = [id] := by simp [queued, notifying]
  have apart := carried.behind (.inl ⟨false, notifying⟩)
  obtain ⟨taken, split, received, stops⟩ := carried.taken
  obtain ⟨q, here, right⟩ := carried.positions id (.inl (by simp [queued_eq]))
  have entry : s.coord.ensure id = q := by simp [ensure, here]
  -- the entry keeps its positions and its state
  have kept : ∀ other, (s.coord.onSinkPrepared id false).pending.lookup other =
      if other = id then some { q with prepared := true, sinkErr := false }
      else s.coord.pending.lookup other := by
    intro other
    by_cases own : other = id
    · subst own
      simp [onSinkPrepared, entry]
    · simp [onSinkPrepared, own]
  refine ⟨carried.distinct, ⟨taken, split, received, ?_⟩, ?_, ?_, ?_, ?_, carried.holding⟩
  · intro other now
    have same : id = other := by simpa [AtBarrier] using now
    exact stops other (.inl ⟨false, same ▸ notifying⟩)
  · rw [carried.marked]
    simp [openMarkers, notifying]
  · intro other stored
    have before := carried.decided other stored
    rw [queued_eq] at before
    exact before
  · intro other inside
    by_cases own : other = id
    · exact ⟨_, (kept other).trans (if_pos own), own ▸ right⟩
    · obtain ⟨p, found, positions⟩ := carried.positions other
        (inside.imp_left fun single => queued_eq ▸ single)
      exact ⟨p, (kept other).trans ((if_neg own).trans found), positions⟩
  · intro other p inside found
    have found' := (kept other).symm.trans found
    by_cases own : other = id
    · subst own
      rw [if_pos rfl, some.injEq] at found'
      rw [← found']
      exact carried.states other q (.inl (by simp [queued_eq])) here
    · rw [if_neg own] at found'
      exact carried.states other p (inside.imp_left fun single => queued_eq ▸ single) found'

theorem Carried.goes (carried : s.Carried feed) {events : List CheckpointID} {loop : WriteLoop}
    (is : t = { s with coord := { s.coord with events }, sink := { s.sink with loop } })
    (same : t.queued = s.queued) (marked : t.openMarkers = s.openMarkers)
    (stops : ∀ id, t.AtBarrier id → s.AtBarrier id) : t.Carried feed := by
  obtain ⟨taken, split, received, stopped⟩ := carried.taken
  subst is
  refine ⟨carried.distinct, ⟨taken, split, received, fun id here => stopped id (stops id here)⟩,
    marked ▸ carried.marked, ?_, ?_, ?_, carried.holding⟩ <;> rw [same]
  exacts [carried.decided, carried.positions, carried.states]

theorem Carried.send (carried : s.Carried feed) (smooth : s.Smooth cfg base)
    (sending : s.sink.loop = .sending id) :
    Carried feed { s with
      coord := { s.coord with events := [id] }
      sink := { s.sink with loop := .waiting id } } := by
  have registered := smooth.protocol.registered id (.inr sending)
  refine carried.goes rfl (by simp [queued, sending]) (by simp [openMarkers, sending, registered])
    fun other here => ?_
  have same : id = other := by simpa [AtBarrier] using here
  exact .inr (.inl (same ▸ sending))

theorem Carried.resume (carried : s.Carried feed) (waiting : s.sink.loop = .waiting id)
    (signalled : id ∉ s.sink.waiters) :
    Carried feed { s with sink := { s.sink with loop := .reading } } := by
  refine carried.goes rfl (by simp [queued, waiting]) (by simp [openMarkers, waiting, signalled]) ?_
  rintro other (⟨_, busy⟩ | busy | busy) <;> cases busy

variable {p : PendingCheckpoint π ν}

theorem Carried.dequeue (carried : s.Carried feed) (waiting : s.sink.loop = .waiting id)
    (events : s.coord.events = [id]) (found : s.coord.pending.lookup id = some p) :
    Carried feed { s with coord := { s.coord with
      events := []
      pending := s.coord.pending.erase id
      worker := .persist id p } } := by
  have queued_eq : s.queued = [id] := by simp [queued, waiting, events]
  have emptied : queued { s with coord := { s.coord with
      events := []
      pending := s.coord.pending.erase id
      worker := .persist id p } } = [] := by simp [queued, waiting]
  have apart := carried.behind (.inr (.inr waiting))
  -- only the checkpoint taken up loses its entry
  have kept : ∀ other, other ∈ marks barrierID s.input ∨ other ∈ feed.upstream →
      (s.coord.pending.erase id).lookup other = s.coord.pending.lookup other := by
    intro other inside
    refine lookup_erase_ne ?_
    rintro rfl
    exact inside.elim apart.1 apart.2
  obtain ⟨q, here, right⟩ := carried.positions id (.inl (by simp [queued_eq]))
  obtain rfl : p = q := some.inj (found.symm.trans here)
  refine ⟨carried.distinct, carried.taken, carried.marked, ?_, ?_, ?_, ?_⟩
  · intro other stored
    obtain ⟨input, upstream, queue, -⟩ := carried.decided other stored
    refine ⟨input, upstream, by rw [emptied]; exact not_mem_nil, ?_⟩
    rw [queued_eq] at queue
    exact queue
  · intro other inside
    rw [emptied] at inside
    have ahead := inside.resolve_left not_mem_nil
    obtain ⟨q, here, right⟩ := carried.positions other (.inr ahead)
    exact ⟨q, (kept other ahead).trans here, right⟩
  · intro other q inside here
    rw [emptied] at inside
    have ahead := inside.resolve_left not_mem_nil
    exact carried.states other q (.inr ahead) ((kept other (.inl ahead)).symm.trans here)
  · intro other q holds
    obtain ⟨rfl, rfl⟩ : id = other ∧ p = q := by simpa [Engine.holds] using holds
    exact ⟨(carried.received (.inr (.inr waiting))).1, right,
      carried.states id p (.inl (by simp [queued_eq])) found⟩

theorem Carried.deciding (carried : s.Carried feed) (smooth : s.Smooth cfg base)
    (deciding : s.coord.worker.undecided = some id) (waiting : s.sink.loop = .waiting id) :
    id ∉ marks barrierID s.input ∧ id ∉ feed.upstream ∧ s.queued = [] := by
  have empty := smooth.protocol.exclusive (by simp [deciding])
  have apart := carried.behind (.inr (.inr waiting))
  exact ⟨apart.1, apart.2, by simp [queued, waiting, empty]⟩

theorem Carried.persist (carried : s.Carried feed) (smooth : s.Smooth cfg base)
    (working : s.coord.worker = .persist id p)
    (waiting : s.sink.loop = .waiting id) (log : List ProtocolEvent) :
    Carried feed { s.work (.commit id p) with
      store := s.store.save (preparedData id p), log } := by
  have deciding : s.coord.worker.undecided = some id := by rw [working]; rfl
  obtain ⟨input, upstream, queue⟩ := carried.deciding smooth deciding waiting
  have queue' : queued { s.work (.commit id p) with
      store := s.store.save (preparedData id p), log } = [] := queue
  refine { carried with decided := ?_, holding := ?_ }
  · intro other stored
    rw [queue']
    by_cases own : other = id
    · subst own
      exact ⟨input, upstream, not_mem_nil, not_mem_nil⟩
    · have before : s.Decided other := by
        refine stored.imp_left ?_
        rintro ⟨data, inside, rfl⟩
        rcases Storage.mem_save.1 inside with ⟨old, -⟩ | rfl
        · exact ⟨data, old, rfl⟩
        · exact absurd rfl own
      obtain ⟨input', upstream', -, -⟩ := carried.decided other before
      exact ⟨input', upstream', not_mem_nil, not_mem_nil⟩
  · intro other q holds
    obtain ⟨rfl, rfl⟩ : id = other ∧ p = q := by simpa [Engine.holds, work] using holds
    exact carried.holding id p (by rw [working]; rfl)

theorem Carried.publish (carried : s.Carried feed) (smooth : s.Smooth cfg base)
    (deciding : s.coord.worker.undecided = some id) (waiting : s.sink.loop = .waiting id) :
    s.sink.publish s.topic = ⟨s.topic.visible ++ s.sink.staged, s.topic.markers ++ [id]⟩ := by
  have registered := smooth.protocol.unsignalled id (.inr deciding) waiting
  have marked := carried.marked
  simp only [openMarkers, waiting, registered, if_true] at marked
  rw [TxnKafkaSink.publish, marked]

theorem Carried.commit (carried : s.Carried feed) (smooth : s.Smooth cfg base)
    (working : s.coord.worker = .commit id p)
    (waiting : s.sink.loop = .waiting id) (log : List ProtocolEvent) :
    Carried feed { (s.work (.complete id p)).nextTransaction id with
      topic := s.sink.publish s.topic, log } := by
  have deciding : s.coord.worker.undecided = some id := by rw [working]; rfl
  obtain ⟨input, upstream, queue⟩ := carried.deciding smooth deciding waiting
  have queue' : queued { (s.work (.complete id p)).nextTransaction id with
      topic := s.sink.publish s.topic, log } = [] := queue
  refine { carried with marked := ?_, decided := ?_, holding := ?_ }
  · simp [openMarkers, nextTransaction, work, TxnKafkaSink.signal, TxnKafkaSink.beginTransaction,
      waiting]
  · intro other stored
    rw [queue']
    by_cases own : other = id
    · subst own
      exact ⟨input, upstream, not_mem_nil, not_mem_nil⟩
    · have before : s.Decided other := by
        refine stored.imp_right fun inside => ?_
        rw [carried.publish smooth deciding waiting] at inside
        simpa [own] using inside
      obtain ⟨input', upstream', -, -⟩ := carried.decided other before
      exact ⟨input', upstream', not_mem_nil, not_mem_nil⟩
  · intro other q holds
    obtain ⟨rfl, rfl⟩ : id = other ∧ p = q := by
      simpa [Engine.holds, work, nextTransaction] using holds
    exact carried.holding id p (by rw [working]; rfl)

theorem Carried.release (carried : s.Carried feed) (worker : FinalizeLoop π ν)
    (released : holds worker = none) (store : Storage π ν) (log : List ProtocolEvent)
    (known : ∀ data ∈ store, ∃ old ∈ s.store, old.id = data.id) :
    Carried feed { s.work worker with store, log } := by
  have none_unsaved : unsaved { s.work worker with store, log } = [] := by
    cases worker <;> first | rfl | cases released
  refine { carried with decided := ?_, holding := ?_ }
  · intro other stored
    have before : s.Decided other := by
      refine stored.imp_left ?_
      rintro ⟨data, inside, rfl⟩
      exact known data inside
    obtain ⟨input, upstream, queue, -⟩ := carried.decided other before
    exact ⟨input, upstream, queue, none_unsaved ▸ not_mem_nil⟩
  · intro other q holding
    exact absurd (released.symm.trans holding) (by simp)

theorem Carried.next (carried : s.Carried feed) (smooth : s.Smooth cfg base)
    (progress : Progress cfg s t) : t.Carried feed := by
  cases progress with
  | watermark r rest reading next marker plain =>
    exact carried.take reading next plain s.sink.staged s.ahead
      (by simp [Record.data_singleton_marker marker])
  | produce r rest message reading next isData written =>
    exact carried.take reading next (Record.barrierID_of_data isData) _ _
      (by rw [Record.data_singleton isData])
  | flush r rest id reading next barrier => exact carried.flush smooth reading next barrier
  | notify id notifying => exact carried.notify notifying
  | send id sending empty => exact carried.send smooth sending
  | resume id waiting signalled => exact carried.resume waiting signalled
  | dequeue id p idle waiting events found => exact carried.dequeue waiting events found
  | persist id p working waiting => exact carried.persist smooth working waiting _
  | commit id p working waiting => exact carried.commit smooth working waiting _
  | complete id p store working updated =>
    exact carried.release (.offsets id p) rfl store _ fun data inside =>
      Storage.mem_updateStatus updated inside
  | offsets id p working =>
    exact carried.release .idle rfl s.store s.log fun data inside => ⟨data, inside, rfl⟩

/-! ## Which checkpoint was committed last -/

def StoragePhase (s : Coordinated π ν) (last : Option (CheckpointData π ν)) : Prop :=
  match s.coord.worker with
  | .commit id p => Dangling s.store s.topic last (preparedData id p)
  | .complete id p => Published s.store s.topic last (preparedData id p)
  | _ => Settled s.store s.topic last

/-- `last` is the checkpoint committed last: still the one the run started from, or one of the
run with the right positions and state, and the output ahead of its barrier is visible. -/
structure Resolved (cfg : TxnKafkaConfig) (base : List TxnMessage)
    (first : Option (CheckpointData π ν)) (feed : Feed π ν) (last : Option (CheckpointData π ν))
    (s : Coordinated π ν) : Prop where
  agrees : Agrees s.store s.topic last
  phase : s.StoragePhase last
  outcome : (last = first ∧ s.topic.visible = base) ∨
    ∃ data, last = some data ∧ data.id ∈ marks barrierID feed.arrived ∧
      feed.positions data.id data.source ∧ feed.state data.id data.operators ∧
      Written cfg base (Record.data (Marked.ahead barrierID data.id feed.arrived))
        s.topic.visible

variable {first last : Option (CheckpointData π ν)}

theorem Resolved.next (resolved : s.Resolved cfg base first feed last)
    (carried : s.Carried feed) (smooth : s.Smooth cfg base) (progress : Progress cfg s t) :
    ∃ last, t.Resolved cfg base first feed last := by
  have phase := resolved.phase
  cases progress with
  | watermark | produce | flush | notify | send | resume =>
    exact ⟨last, resolved.agrees, resolved.phase, resolved.outcome⟩
  | dequeue id p idle waiting events found =>
    refine ⟨last, resolved.agrees, ?_, resolved.outcome⟩
    simp only [StoragePhase, idle] at phase
    exact phase
  | persist id p working waiting =>
    simp only [StoragePhase, working] at phase
    have uncommitted : id ∉ s.topic.markers := fun inside =>
      (carried.decided id (.inr inside)).2.2.2 (by simp [unsaved, working])
    have fresh : ∀ old ∈ s.store, old.id ≠ id := fun old inside same =>
      (carried.decided id (.inl ⟨old, inside, same⟩)).2.2.2 (by simp [unsaved, working])
    obtain ⟨agrees, dangling⟩ := resolved.agrees.persist phase (preparedData id p) rfl
      fresh uncommitted
    exact ⟨last, agrees, dangling, resolved.outcome⟩
  | commit id p working waiting =>
    simp only [StoragePhase, working] at phase
    have deciding : s.coord.worker.undecided = some id := by rw [working]; rfl
    have published := carried.publish smooth deciding waiting
    obtain ⟨present, received⟩ := carried.received (.inr (.inr waiting))
    obtain ⟨-, positions, state⟩ := carried.holding id p (by rw [working]; rfl)
    have written := smooth.protocol.ledger smooth.healthy smooth.runs
    obtain ⟨agrees, complete⟩ := resolved.agrees.publish phase (s.topic.visible ++ s.sink.staged)
    have topic : s.sink.publish s.topic =
        ⟨s.topic.visible ++ s.sink.staged, s.topic.markers ++
          [(preparedData id p).id]⟩ := published
    refine ⟨_, topic ▸ agrees, topic ▸ complete, .inr ⟨_, rfl, present, positions, state, ?_⟩⟩
    rw [received] at written
    exact written
  | complete id p store working updated =>
    simp only [StoragePhase, working] at phase
    obtain ⟨updated', agrees, settled⟩ := resolved.agrees.complete phase
    obtain rfl := some.inj (updated'.symm.trans updated)
    exact ⟨last, agrees, settled, resolved.outcome⟩
  | offsets id p working =>
    simp only [StoragePhase, working] at phase
    exact ⟨last, resolved.agrees, phase, resolved.outcome⟩

/-! ## The run in its surroundings -/

structure Tracked (cfg : TxnKafkaConfig) (base : List TxnMessage)
    (first : Option (CheckpointData π ν)) (feed : Feed π ν) (last : Option (CheckpointData π ν))
    (s : Coordinated π ν) : Prop where
  smooth : s.Smooth cfg base
  carried : s.Carried feed
  resolved : s.Resolved cfg base first feed last

theorem tracked_start {store : Storage π ν} {topic : Topic} (agrees : Agrees store topic last)
    (settled : Settled store topic last) (feed : Feed π ν) (arrived : feed.arrived = []) (upstream :
    feed.upstream = []) : (start store topic).Tracked cfg topic.visible last feed last where
  smooth :=
    { protocol := inv_start store topic
      healthy := ⟨by simp [Aborted, start], rfl⟩
      runs := by simp [start]
      unhalted := rfl
      flushed := by simp [start]
      answered := by simp [start]
      reports := by simp [start]
      aborts := by simp [start] }
  carried :=
    { distinct := by simp [arrived, upstream]
      taken := ⟨[], by simp [arrived, start], rfl, by simp [AtBarrier, start]⟩
      marked := rfl
      decided := by simp [start, queued, unsaved, upstream]
      positions := by simp [start, queued, upstream]
      states := by simp [start, queued]
      holding := by simp [start, holds] }
  resolved := ⟨agrees, settled, .inl ⟨rfl, rfl⟩⟩

theorem Progress.decided (progress : Progress cfg s t) (carried : s.Carried feed)
    (smooth : s.Smooth cfg base) (decided : t.Decided id) :
    s.Decided id ∨ id ∈ marks barrierID feed.arrived := by
  cases progress with
  | watermark | produce | flush | notify | send | resume | dequeue | offsets => exact .inl decided
  | persist own p working waiting =>
    rcases decided with ⟨data, inside, rfl⟩ | marked
    · rcases Storage.mem_save.1 inside with ⟨old, -⟩ | rfl
      · exact .inl (.inl ⟨data, old, rfl⟩)
      · exact .inr (carried.received (.inr (.inr waiting))).1
    · exact .inl (.inr marked)
  | commit own p working waiting =>
    rcases decided with stored | marked
    · exact .inl (.inl stored)
    · have deciding : s.coord.worker.undecided = some own := by rw [working]; rfl
      rw [carried.publish smooth deciding waiting] at marked
      rcases mem_append.1 marked with old | new
      · exact .inl (.inr old)
      · rw [mem_singleton.1 new]
        exact .inr (carried.received (.inr (.inr waiting))).1
  | complete own p store working updated =>
    rcases decided with ⟨data, inside, rfl⟩ | marked
    · exact .inl (.inl (Storage.mem_updateStatus updated inside))
    · exact .inl (.inr marked)

theorem Progress.closed (progress : Progress cfg s t) : t.closed = s.closed := by
  cases progress <;> rfl

theorem Tracked.progress (tracked : s.Tracked cfg base first feed last) (total : ∀ r,
    (cfg.message r).isSome) {action : ProtocolAction π ν} (succeeds : action.succeeds = true)
    (moves : step cfg s action = some t) : Progress cfg s t := by
  refine tracked.smooth.progress total (fun id p working => ?_) succeeds moves
  have phase := tracked.resolved.phase
  simp only [StoragePhase, working] at phase
  have updated := (tracked.resolved.agrees.complete phase).1
  exact isSome_iff_exists.2 ⟨_, updated⟩

theorem Tracked.next (tracked : s.Tracked cfg base first feed last)
    (total : ∀ r, (cfg.message r).isSome) {action : ProtocolAction π ν}
    (succeeds : action.succeeds = true) (moves : step cfg s action = some t) :
    (∃ last, t.Tracked cfg base first feed last) ∧
      ∀ id, t.Decided id → s.Decided id ∨ id ∈ marks barrierID feed.arrived := by
  have progress := tracked.progress total succeeds moves
  obtain ⟨smooth, carried, resolved⟩ := tracked
  obtain ⟨last, resolved'⟩ := resolved.next carried smooth progress
  exact ⟨⟨last, smooth.next progress (inv_step smooth.protocol
    (fun _ _ aborted => absurd aborted smooth.healthy.1) moves),
    carried.next smooth progress, resolved'⟩, fun _ => progress.decided carried smooth⟩

theorem Smooth.learn (smooth : s.Smooth cfg base) (input : List Record)
    (pending : AList fun _ : CheckpointID => PendingCheckpoint π ν)
    (kept : ∀ id p, s.coord.pending.lookup id = some p →
      ∃ q, pending.lookup id = some q ∧ q.sinkErr = p.sinkErr) :
    Smooth cfg base { s with input, coord := { s.coord with pending } } := by
  have inv := smooth.protocol.learn pending kept
  refine { smooth with protocol := ?_, answered := ?_ }
  · exact { inv with }
  · intro id q busy found
    obtain ⟨p, before, -⟩ := smooth.protocol.answered id busy
    obtain ⟨q', found', same⟩ := kept id p before
    obtain rfl : q = q' := some.inj (found.symm.trans found')
    exact same.trans (smooth.answered id p busy before)

theorem Tracked.close (tracked : s.Tracked cfg base first feed last) :
    Tracked cfg base first feed last { s with closed := true } := by
  obtain ⟨smooth, carried, resolved⟩ := tracked
  exact ⟨{ smooth with protocol := { smooth.protocol with } }, { carried with }, { resolved with }⟩

theorem Carried.queued_mem (carried : s.Carried feed) (smooth : s.Smooth cfg base)
    (inside : id ∈ s.queued) : id ∈ marks barrierID feed.arrived := by
  have here : s.AtBarrier id := by
    cases loop : s.sink.loop with
    | notifying other failed =>
      obtain rfl : id = other := by simpa [queued, loop] using inside
      exact .inl ⟨failed, loop⟩
    | sending other =>
      obtain rfl : id = other := by simpa [queued, loop] using inside
      exact .inr (.inl loop)
    | reading | waiting _ | returned =>
      have listed : id ∈ s.coord.events := by simpa [queued, loop] using inside
      exact .inr (.inr ((smooth.protocol.awaited id (.inl listed)).resolve_right smooth.runs))
  exact (carried.received here).1

theorem Carried.input_mem (carried : s.Carried feed)
    (inside : id ∈ marks barrierID s.input) : id ∈ marks barrierID feed.arrived := by
  obtain ⟨taken, split, -⟩ := carried.taken
  rw [split, marks_append]
  exact mem_append_right _ inside

theorem Tracked.inject (tracked : s.Tracked cfg base first feed last)
    (offsets : Option π) (feed' : Feed π ν) (arrived : feed'.arrived = feed.arrived)
    (upstream : feed'.upstream = feed.upstream ++ [id])
    (fresh : id ∉ marks barrierID feed.arrived ++ feed.upstream)
    (undecided : ¬s.Decided id)
    (positions_kept : ∀ other, other ≠ id → ∀ o, feed.positions other o → feed'.positions other o)
    (state_kept : ∀ other, other ≠ id → ∀ o, feed.state other o → feed'.state other o)
    (right : feed'.positions id offsets) :
    Tracked cfg base first feed' last
      { s with coord := s.coord.onBarrierInjected id offsets } := by
  obtain ⟨_, _, positions, state⟩ := feed'
  subst arrived upstream
  obtain ⟨smooth, carried, resolved⟩ := tracked
  rw [mem_append, not_or] at fresh
  obtain ⟨unseen, unsent⟩ := fresh
  have differs : ∀ other, other ∈ marks barrierID feed.arrived → other ≠ id := by
    rintro other inside rfl
    exact unseen inside
  have kept : ∀ other, other ≠ id → (s.coord.onBarrierInjected id offsets).pending.lookup other =
      s.coord.pending.lookup other := fun other own => by
    simp [Coordinator.onBarrierInjected, own]
  refine ⟨smooth.learn s.input _ (lookup_insert_ensure s.coord id _ rfl), ?_, ?_⟩
  · refine ⟨?_, carried.taken, carried.marked, ?_, ?_, ?_, ?_⟩
    · simp only [← append_assoc]
      refine nodup_append.2 ⟨carried.distinct, by simp, ?_⟩
      rintro other inside own single rfl
      rw [mem_singleton] at single
      subst single
      exact (mem_append.1 inside).elim unseen unsent
    · intro other stored
      obtain ⟨input, upstream, queue, waiting⟩ := carried.decided other stored
      refine ⟨input, ?_, queue, waiting⟩
      rw [mem_append, mem_singleton, not_or]
      exact ⟨upstream, fun own => undecided (own ▸ stored)⟩
    · intro other inside
      by_cases own : other = id
      · subst own
        exact ⟨_, lookup_insert _, right⟩
      · have before : other ∈ s.queued ∨ other ∈ marks barrierID s.input ∨
            other ∈ feed.upstream := by
          simp only [mem_append, mem_singleton, own, or_false] at inside
          exact inside
        obtain ⟨p, found, positioned⟩ := carried.positions other before
        exact ⟨p, (kept other own).trans found, positions_kept other own _ positioned⟩
    · intro other p inside found
      have own : other ≠ id := differs other
        (inside.elim (carried.queued_mem smooth) carried.input_mem)
      exact state_kept other own _
        (carried.states other p inside ((kept other own).symm.trans found))
    · intro other p holding
      obtain ⟨inside, positioned, stated⟩ := carried.holding other p holding
      have own := differs other inside
      exact ⟨inside, positions_kept other own _ positioned, state_kept other own _ stated⟩
  · refine ⟨resolved.agrees, resolved.phase, resolved.outcome.imp_right ?_⟩
    rintro ⟨data, same, inside, positioned, stated, written⟩
    have own := differs data.id inside
    exact ⟨data, same, inside, positions_kept _ own _ positioned, state_kept _ own _ stated,
      written⟩

theorem Resolved.grow (resolved : s.Resolved cfg base first feed last) (r : Record)
    (upstream : List CheckpointID) :
    s.Resolved cfg base first { feed with arrived := feed.arrived ++ [r], upstream } last := by
  refine ⟨resolved.agrees, resolved.phase, resolved.outcome.imp_right ?_⟩
  rintro ⟨data, same, inside, positioned, stated, written⟩
  refine ⟨data, same, ?_, positioned, stated, ?_⟩
  · rw [marks_append]
    exact mem_append_left _ inside
  · rw [Marked.ahead_append_of_mem inside]
    exact written

theorem Tracked.arrive (tracked : s.Tracked cfg base first feed last) (plain : r.barrierID = none) :
    Tracked cfg base first { feed with arrived := feed.arrived ++ [r] } last
      { s with input := s.input ++ [r] } := by
  obtain ⟨smooth, carried, resolved⟩ := tracked
  obtain ⟨taken, split, received, stops⟩ := carried.taken
  have same : ∀ stream, marks barrierID (stream ++ [r]) = marks barrierID stream := by
    intro stream
    rw [marks_append, Marked.marks_singleton_none plain, append_nil]
  have smooth' := smooth.learn (s.input ++ [r]) s.coord.pending fun _ p found => ⟨p, found, rfl⟩
  have grown := resolved.grow r feed.upstream
  refine ⟨smooth', ⟨?_, ⟨taken, ?_, received, stops⟩, carried.marked, ?_, ?_, ?_, ?_⟩,
    grown.agrees, grown.phase, grown.outcome⟩
  · rw [same]
    exact carried.distinct
  · rw [split, append_assoc]
  · rw [same]
    exact carried.decided
  · rw [same]
    exact carried.positions
  · rw [same]
    exact carried.states
  · rw [same]
    exact carried.holding

theorem Tracked.tap (tracked : s.Tracked cfg base first feed last)
    {rest : List CheckpointID} (barrier : r.barrierID = some id)
    (next : feed.upstream = id :: rest) (state : ν) (right : feed.state id (some state)) :
    Tracked cfg base first { feed with arrived := feed.arrived ++ [r], upstream := rest } last
      { s with coord := s.coord.onStateSnapshot id state, input := s.input ++ [r] } := by
  obtain ⟨smooth, carried, resolved⟩ := tracked
  obtain ⟨taken, split, received, stops⟩ := carried.taken
  have arrived : ∀ stream, marks barrierID (stream ++ [r]) =
      marks barrierID stream ++ [id] := by
    intro stream
    rw [marks_append, marks_singleton barrier]
  have distinct := carried.distinct
  rw [next] at distinct
  have kept : ∀ other, other ≠ id → (s.coord.onStateSnapshot id state).pending.lookup other =
      s.coord.pending.lookup other := fun other own => by
    simp [onStateSnapshot, own]
  have grown := resolved.grow r rest
  refine ⟨smooth.learn _ _ (lookup_insert_ensure s.coord id _ rfl),
    ⟨?_, ⟨taken, ?_, received, stops⟩, carried.marked, ?_, ?_, ?_, ?_⟩,
    grown.agrees, grown.phase, grown.outcome⟩
  · rw [arrived, append_assoc, singleton_append]
    exact distinct
  · rw [split, append_assoc]
  · intro other stored
    obtain ⟨input, upstream, queue, waiting⟩ := carried.decided other stored
    rw [next, mem_cons, not_or] at upstream
    refine ⟨?_, upstream.2, queue, waiting⟩
    rw [arrived, mem_append, mem_singleton, not_or]
    exact ⟨input, upstream.1⟩
  · intro other inside
    rw [arrived, mem_append, mem_singleton] at inside
    have before : other ∈ s.queued ∨ other ∈ marks barrierID s.input ∨
        other ∈ feed.upstream := by
      rw [next, mem_cons]
      tauto
    obtain ⟨p, found, positioned⟩ := carried.positions other before
    by_cases own : other = id
    · subst own
      refine ⟨_, lookup_insert _, ?_⟩
      simpa [ensure, found] using positioned
    · exact ⟨p, (kept other own).trans found, positioned⟩
  · intro other p inside found
    by_cases own : other = id
    · subst own
      have entry : p.state = some state := by
        simp only [onStateSnapshot, lookup_insert, some.injEq] at found
        rw [← found]
      exact entry ▸ right
    · have before : other ∈ s.queued ∨ other ∈ marks barrierID s.input := by
        rw [arrived, mem_append, mem_singleton] at inside
        tauto
      exact carried.states other p before ((kept other own).symm.trans found)
  · intro other p holding
    obtain ⟨inside, positioned, stated⟩ := carried.holding other p holding
    rw [arrived]
    exact ⟨mem_append_left _ inside, positioned, stated⟩

end Coordinated

end Weibo.Engine
