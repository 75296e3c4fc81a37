import Weibo.Checkpoint.Coordinator
import Weibo.Lib.Transition
import Weibo.Sink.TxnKafkaSink

/-!
# The coordinated commit protocol

The sink's `Write` goroutine, the coordinator's finalize worker, and the goroutine that turns a
fatal coordinator error into the cancellation of the hard context. The stream, the outcome of every
call to the broker and the storage, and the schedule are arbitrary.
-/

namespace Weibo.Engine

open Checkpoint Sink List Option Bool
open Transition (Reach Always of_ite_some of_ite_none)

inductive FatalWatcher where
  | watching
  | relaying
  | done
  deriving DecidableEq

inductive ProtocolEvent where
  | aborted (id : CheckpointID)
  | prepared (id : CheckpointID)
  | committed (id : CheckpointID) (covered : List Record)
  | completed (id : CheckpointID)
  deriving DecidableEq

def ProtocolEvent.isAbort : ProtocolEvent → Bool
  | .aborted _ => true
  | _ => false

inductive CommitOutcome where
  | done
  | failed
  | unknown
  deriving DecidableEq

structure Coordinated (π ν : Type) where
  input : List Record := []
  closed : Bool := false
  sink : TxnKafkaSink := {}
  coord : Coordinator π ν := {}
  watcher : FatalWatcher := .watching
  hardCancelled : Bool := false
  store : Storage π ν := []
  topic : Topic := {}
  log : List ProtocolEvent := []
  ahead : List Record := []

inductive ProtocolAction (π ν : Type) where
  | injected (id : CheckpointID) (offsets : Option π)
  | snapshotted (id : CheckpointID) (state : ν)
  | arrive (record : Record)
  | close
  | receive (sent : Bool)
  | flush (flushed : Bool)
  | notify
  | send
  | resume
  | unwind
  | finish
  | dequeue
  | persist (saved : Bool)
  | commit (outcome : CommitOutcome)
  | complete (saved : Bool)
  | commitOffsets
  | abort (succeeds : Bool)
  | report
  | relay
  | cancel
  | leave
  | hardCancel
  | stop

namespace Coordinated

variable {π ν : Type}

def work (s : Coordinated π ν) (worker : FinalizeLoop π ν) : Coordinated π ν :=
  { s with coord := { s.coord with worker } }

/-- The transaction has ended, a new one is opened and `Write` is unblocked. -/
def nextTransaction (s : Coordinated π ν) (id : CheckpointID) : Coordinated π ν :=
  { s with sink := s.sink.beginTransaction.signal id }

/-- The `Write` goroutine handles a watermark or a data record. -/
def receive (cfg : TxnKafkaConfig) (s : Coordinated π ν) (sent : Bool) :
    Option (Coordinated π ν) :=
  match s.sink.loop, s.input with
  | .reading, r :: rest =>
    if r.isWatermark then some { s with input := rest }
    else if r.isBarrier then none
    else some { s with
      input := rest
      sink := s.sink.produce (cfg.message r) sent
      ahead := s.ahead ++ [r] }
  | _, _ => none

/-- The `Write` goroutine reaches a barrier. -/
def flush (s : Coordinated π ν) (flushed : Bool) : Option (Coordinated π ν) :=
  match s.sink.loop, s.input with
  | .reading, r :: rest =>
    if r.isWatermark ∨ ¬r.isBarrier then none
    else r.checkpointID.map fun id =>
      { s with input := rest, sink := s.sink.prepare id flushed }
  | _, _ => none

/-- `onPrepared` records the sink's answer. -/
def notify (s : Coordinated π ν) : Option (Coordinated π ν) :=
  match s.sink.loop with
  | .notifying id failed => some { s with
      coord := s.coord.onSinkPrepared id failed
      sink := { s.sink with loop := .sending id } }
  | _ => none

/-- `onPrepared` queues the checkpoint. -/
def send (s : Coordinated π ν) : Option (Coordinated π ν) :=
  match s.sink.loop with
  | .sending id => (s.coord.enqueue id).map fun coord =>
      { s with coord, sink := { s.sink with loop := .waiting id } }
  | _ => none

/-- `Write` goes on after `Commit` or `Abort`. -/
def resume (s : Coordinated π ν) : Option (Coordinated π ν) :=
  match s.sink.loop with
  | .waiting id =>
    if id ∈ s.sink.waiters then none
    else some { s with sink := { s.sink with loop := .reading } }
  | _ => none

/-- `Write` returns because the hard context is cancelled. -/
def unwind (s : Coordinated π ν) : Option (Coordinated π ν) :=
  match s.sink.loop with
  | .waiting _ => if s.hardCancelled then some { s with sink := s.sink.finish } else none
  | _ => none

/-- `Write` returns at the end of its input. -/
def finish (s : Coordinated π ν) : Option (Coordinated π ν) :=
  if s.sink.loop = .reading ∧ s.input = [] ∧ s.closed then some { s with sink := s.sink.finish }
  else none

/-- `finalize` takes up a checkpoint. -/
def dequeue (s : Coordinated π ν) : Option (Coordinated π ν) :=
  s.coord.dequeue.map fun coord => { s with coord }

/-- `finalize` stores the prepared checkpoint. -/
def persist (s : Coordinated π ν) (saved : Bool) : Option (Coordinated π ν) :=
  match s.coord.worker with
  | .persist id p =>
    if saved then
      some { s.work (.commit id p) with
        store := s.store.save (Coordinator.preparedData id p)
        log := s.log ++ [.prepared id] }
    else some (s.work (.abort id))
  | _ => none

/-- `finalize` commits the sink transaction. That works only while `Write` runs: when it
returns it aborts the transaction and closes the client. -/
def commit (s : Coordinated π ν) (outcome : CommitOutcome) : Option (Coordinated π ν) :=
  match s.coord.worker with
  | .commit id p =>
    if outcome = .failed then some (s.work .report)
    else if s.sink.loop = .returned then none
    else
      let published : Coordinated π ν := { s with
        topic := s.sink.publish s.topic
        log := s.log ++ [.committed id s.ahead] }
      some (if outcome = .done then (published.work (.complete id p)).nextTransaction id
        else { published.work .report with sink := s.sink.beginTransaction })
  | _ => none

/-- `finalize` stores the checkpoint as completed. -/
def complete (s : Coordinated π ν) (saved : Bool) : Option (Coordinated π ν) :=
  match s.coord.worker with
  | .complete id p =>
    match saved, s.store.updateStatus id .completed with
    | true, some store =>
      some { s.work (.offsets id p) with store, log := s.log ++ [.completed id] }
    | _, _ => some (s.work .report)
  | _ => none

/-- `finalize` commits the source offsets; an error is only logged. -/
def commitOffsets (s : Coordinated π ν) : Option (Coordinated π ν) :=
  match s.coord.worker with
  | .offsets _ _ => some (s.work .idle)
  | _ => none

/-- `abortFatal` aborts the sink transaction; an error is only logged. -/
def abort (s : Coordinated π ν) (succeeds : Bool) : Option (Coordinated π ν) :=
  match s.coord.worker with
  | .abort id =>
    let aborted := { s.work .report with log := s.log ++ [.aborted id] }
    some (if succeeds then aborted.nextTransaction id else aborted)
  | _ => none

def report (s : Coordinated π ν) : Option (Coordinated π ν) :=
  match s.coord.worker with
  | .report => some { s with coord := { s.coord with worker := .idle, fatal := true } }
  | _ => none

def step (cfg : TxnKafkaConfig) (s : Coordinated π ν) :
    ProtocolAction π ν → Option (Coordinated π ν)
  | .injected id offsets => some { s with coord := s.coord.onBarrierInjected id offsets }
  | .snapshotted id state => some { s with coord := s.coord.onStateSnapshot id state }
  | .arrive r => if s.closed then none else some { s with input := s.input ++ [r] }
  | .close => some { s with closed := true }
  | .receive sent => s.receive cfg sent
  | .flush flushed => s.flush flushed
  | .notify => s.notify
  | .send => s.send
  | .resume => s.resume
  | .unwind => s.unwind
  | .finish => s.finish
  | .dequeue => s.dequeue
  | .persist saved => s.persist saved
  | .commit outcome => s.commit outcome
  | .complete saved => s.complete saved
  | .commitOffsets => s.commitOffsets
  | .abort succeeds => s.abort succeeds
  | .report => s.report
  | .relay =>
    if s.watcher = .watching ∧ s.coord.fatal then
      some { s with watcher := .relaying, coord := { s.coord with fatal := false } }
    else none
  | .cancel =>
    if s.watcher = .relaying then some { s with watcher := .done, hardCancelled := true } else none
  | .leave =>
    if s.watcher = .watching ∧ s.sink.loop = .returned then some { s with watcher := .done }
    else none
  | .hardCancel => some { s with hardCancelled := true }
  | .stop =>
    if s.sink.loop = .returned then some { s with coord := { s.coord with halted := true } }
    else none

def Aborted (s : Coordinated π ν) : Prop := ∃ event ∈ s.log, event.isAbort = true

/-- Once a checkpoint is aborted, every later event is an abort. -/
def AbortsLast (s : Coordinated π ν) : Prop :=
  s.log.Pairwise fun earlier later => earlier.isAbort = true → later.isAbort = true

def Written (cfg : TxnKafkaConfig) (base : List TxnMessage) (records : List Record)
    (output : List TxnMessage) : Prop :=
  ∃ messages, records.map cfg.message = messages.map some ∧ base ++ messages = output

/-- What a logged commit covers is written and visible. -/
def CommitsCovered (cfg : TxnKafkaConfig) (base : List TxnMessage) (s : Coordinated π ν) : Prop :=
  ∀ id covered, .committed id covered ∈ s.log →
    ∃ output, Written cfg base covered output ∧ output <+: s.topic.visible

/-- After an abort the hard context is cancelled before the sink flushes again. -/
def CancelledInTime (s : Coordinated π ν) : ProtocolAction π ν → Prop
  | .flush _ => s.Aborted → s.hardCancelled = true
  | _ => True

/-- What is asked of the Kafka client: a call with a cancelled context fails. -/
def FailsCancelled (s : Coordinated π ν) : ProtocolAction π ν → Prop
  | .receive succeeds | .flush succeeds => s.hardCancelled = true → succeeds = false
  | _ => True

instance (s : Coordinated π ν) : Decidable s.Aborted :=
  inferInstanceAs (Decidable (∃ event ∈ s.log, event.isAbort = true))

instance (s : Coordinated π ν) (action : ProtocolAction π ν) :
    Decidable (CancelledInTime s action) := by
  cases action <;> unfold CancelledInTime <;> infer_instance

instance (s : Coordinated π ν) (action : ProtocolAction π ν) :
    Decidable (FailsCancelled s action) := by
  cases action <;> unfold FailsCancelled <;> infer_instance

/-! ## The invariant -/

def Healthy (s : Coordinated π ν) : Prop := ¬s.Aborted ∧ s.sink.produceErr = false

def Outstanding (s : Coordinated π ν) (id : CheckpointID) : Prop :=
  id ∈ s.coord.events ∨ s.coord.worker.undecided = some id

def Answered (s : Coordinated π ν) (id : CheckpointID) : Prop :=
  ∃ p, s.coord.pending.lookup id = some p ∧ (p.sinkErr = false → s.Healthy)

structure Inv (cfg : TxnKafkaConfig) (base : List TxnMessage) (s : Coordinated π ν) : Prop where
  single : s.coord.events.length ≤ 1
  exclusive : s.coord.worker.undecided ≠ none → s.coord.events = []
  awaited : ∀ id, s.Outstanding id → s.sink.loop = .waiting id ∨ s.sink.loop = .returned
  unsignalled : ∀ id, s.Outstanding id → s.sink.loop = .waiting id → id ∈ s.sink.waiters
  registered : ∀ id, (∃ failed, s.sink.loop = .notifying id failed) ∨ s.sink.loop = .sending id →
    id ∈ s.sink.waiters
  flushed : ∀ id, s.sink.loop = .notifying id false → s.Healthy
  answered : ∀ id, s.sink.loop = .sending id ∨ id ∈ s.coord.events → s.Answered id
  persisting : ∀ id p, s.coord.worker = .persist id p → s.Healthy
  committing : ∀ id p, s.coord.worker = .commit id p → s.Healthy
  completing : ∀ id p, s.coord.worker = .complete id p → ¬s.Aborted
  ledger : s.Healthy → s.sink.loop ≠ .returned →
    Written cfg base s.ahead (s.topic.visible ++ s.sink.staged)
  covered : s.CommitsCovered cfg base
  ordered : s.AbortsLast

variable {cfg : TxnKafkaConfig} {base : List TxnMessage} {s t : Coordinated π ν}

def start (store : Storage π ν) (topic : Topic) : Coordinated π ν := { store, topic }

theorem inv_start (store : Storage π ν)
    (topic : Topic) : (start store topic).Inv cfg topic.visible := by
  constructor <;>
    simp [start, Outstanding, FinalizeLoop.undecided, Written, CommitsCovered, AbortsLast]

theorem Inv.rests (inv : s.Inv cfg base) (runs : s.sink.loop ≠ .returned)
    (busy : ∀ id, s.sink.loop ≠ .waiting id) (id : CheckpointID) : ¬s.Outstanding id :=
  fun outstanding => (inv.awaited id outstanding).elim (busy id) runs

theorem Inv.idle (inv : s.Inv cfg base) (runs : s.sink.loop ≠ .returned)
    (busy : ∀ id, s.sink.loop ≠ .waiting id) :
    s.coord.events = [] ∧ s.coord.worker.undecided = none :=
  ⟨eq_nil_iff_forall_not_mem.2 fun id queued => inv.rests runs busy id (.inl queued),
    eq_none_iff_forall_ne_some.2 fun id working => inv.rests runs busy id (.inr working)⟩

/-- The `Write` goroutine goes on while the coordinator has nothing to do. -/
theorem Inv.write (inv : s.Inv cfg base) (idle : ∀ id, ¬s.Outstanding id) {sink : TxnKafkaSink}
    (input ahead : List Record)
    (registered : ∀ id, (∃ failed, sink.loop = .notifying id failed) ∨ sink.loop = .sending id →
      id ∈ sink.waiters)
    (flushed : ∀ id, sink.loop = .notifying id false → Healthy { s with sink })
    (unsent : ∀ id, sink.loop ≠ .sending id)
    (ledger : Healthy { s with sink } → Written cfg base ahead (s.topic.visible ++ sink.staged)) :
    Inv cfg base { s with sink, input, ahead } :=
  { inv with
    awaited := fun id outstanding => absurd outstanding (idle id)
    unsignalled := fun id outstanding => absurd outstanding (idle id)
    registered, flushed
    answered :=
      fun id busy => busy.elim (absurd · (unsent id)) fun queued => absurd (.inl queued) (idle id)
    persisting :=
      fun id _ working => absurd (.inr (congrArg FinalizeLoop.undecided working)) (idle id)
    committing :=
      fun id _ working => absurd (.inr (congrArg FinalizeLoop.undecided working)) (idle id)
    ledger := fun healthy _ => ledger healthy }

theorem Inv.learn (inv : s.Inv cfg base)
    (pending : AList fun _ : CheckpointID => PendingCheckpoint π ν)
    (kept : ∀ id p, s.coord.pending.lookup id = some p →
      ∃ q, pending.lookup id = some q ∧ q.sinkErr = p.sinkErr) :
    Inv cfg base { s with coord := { s.coord with pending } } := by
  refine { inv with answered := fun id busy => ?_ }
  obtain ⟨p, found, healthy⟩ := inv.answered id busy
  obtain ⟨q, found', same⟩ := kept id p found
  exact ⟨q, found', fun fine => healthy (same.symm.trans fine)⟩

theorem lookup_insert_ensure (c : Coordinator π ν) (id : CheckpointID)
    (entry : PendingCheckpoint π ν) (same : entry.sinkErr = (c.ensure id).sinkErr)
    (other : CheckpointID) (p : PendingCheckpoint π ν) (found : c.pending.lookup other = some p) :
    ∃ q, (c.pending.insert id entry).lookup other = some q ∧ q.sinkErr = p.sinkErr := by
  by_cases own : other = id
  · subst own
    exact ⟨entry, by simp, by simpa [Coordinator.ensure, found] using same⟩
  · exact ⟨p, by simpa [own] using found, rfl⟩

theorem Written.append {records : List Record} {output : List TxnMessage} {r : Record}
    {message : TxnMessage} (written : Written cfg base records output) (found :
    cfg.message r = some message) : Written cfg base (records ++ [r]) (output ++ [message]) := by
  obtain ⟨messages, all, same⟩ := written
  refine ⟨messages ++ [message], ?_, ?_⟩
  · simp [all, found]
  · rw [← same, append_assoc]

theorem Inv.receive {sent : Bool} (inv : s.Inv cfg base) (moves : s.receive cfg sent = some t) :
    t.Inv cfg base := by
  unfold Coordinated.receive at moves
  split at moves
  case h_2 => cases moves
  case h_1 r rest reading arrived =>
    split at moves
    · cases moves
      exact { inv with }
    · obtain ⟨-, rfl⟩ := of_ite_none moves
      have frame : (s.sink.produce (cfg.message r) sent).loop = .reading := by
        unfold TxnKafkaSink.produce
        split <;> exact reading
      refine inv.write (inv.rests (by simp [reading]) (by simp [reading])) _ _ (by simp [frame])
        (by simp [frame]) (by simp [frame]) fun ⟨clean, fine⟩ => ?_
      cases message : cfg.message r with
      | none => simp [TxnKafkaSink.produce, message] at fine
      | some written =>
        cases sent with
        | false => simp [TxnKafkaSink.produce, message] at fine
        | true =>
          simp only [TxnKafkaSink.produce, message] at fine
          have before := inv.ledger ⟨clean, fine⟩ (by simp [reading])
          simpa [TxnKafkaSink.produce, message, append_assoc] using before.append message

theorem Inv.flush {flushed : Bool} (inv : s.Inv cfg base)
    (late : s.Aborted → flushed = false) (moves : s.flush flushed = some t) : t.Inv cfg base := by
  unfold Coordinated.flush at moves
  split at moves
  case h_2 => cases moves
  case h_1 r rest reading arrived =>
    split at moves
    · cases moves
    · obtain ⟨id, -, rfl⟩ := map_eq_some_iff.1 moves
      refine inv.write (inv.rests (by simp [reading]) (by simp [reading])) rest s.ahead
        (fun other busy => ?_)
        (fun other busy => ?_) (by simp [TxnKafkaSink.prepare]) fun healthy =>
          inv.ledger healthy (by simp [reading])
      · have same : id = other := by simpa [TxnKafkaSink.prepare] using busy
        simp [TxnKafkaSink.prepare, same]
      · simp only [TxnKafkaSink.prepare, WriteLoop.notifying.injEq, or_eq_false_iff,
          not_eq_false'] at busy
        obtain ⟨-, done, fine⟩ := busy
        exact ⟨fun aborted => by simp [late aborted] at done, fine⟩

theorem Inv.notify (inv : s.Inv cfg base) (moves : s.notify = some t) : t.Inv cfg base := by
  unfold Coordinated.notify at moves
  split at moves
  case h_2 => cases moves
  case h_1 id failed notifying =>
    cases moves
    obtain ⟨empty, undecided⟩ := inv.idle (by simp [notifying]) (by simp [notifying])
    refine { inv with
      awaited := ?_, unsignalled := ?_, registered := ?_, flushed := ?_
      answered := ?_, ledger := ?_ }
    · intro other outstanding
      simp [Outstanding, Coordinator.onSinkPrepared, empty, undecided] at outstanding
    · intro other outstanding
      simp [Outstanding, Coordinator.onSinkPrepared, empty, undecided] at outstanding
    · intro other busy
      have same : id = other := by simpa using busy
      exact inv.registered other (.inl ⟨failed, same ▸ notifying⟩)
    · intro other busy
      cases busy
    · intro other busy
      have same : id = other := by simpa [Coordinator.onSinkPrepared, empty] using busy
      subst same
      refine ⟨_, AList.lookup_insert _, fun fine => ?_⟩
      have failed' : failed = false := fine
      exact inv.flushed id (failed' ▸ notifying)
    · intro healthy _
      exact inv.ledger healthy (by simp [notifying])

theorem Inv.send (inv : s.Inv cfg base) (moves : s.send = some t) : t.Inv cfg base := by
  unfold Coordinated.send at moves
  split at moves
  case h_2 => cases moves
  case h_1 id sending =>
    obtain ⟨coord, queued, rfl⟩ := map_eq_some_iff.1 moves
    obtain ⟨empty, undecided⟩ := inv.idle (by simp [sending]) (by simp [sending])
    have answer := inv.answered id (.inl sending)
    -- a halted coordinator takes nothing, otherwise this is the only event
    obtain ⟨events, same, only⟩ : ∃ events, coord = { s.coord with events } ∧
        (events = [] ∨ events = [id]) := by
      unfold Coordinator.enqueue at queued
      split at queued
      · exact ⟨s.coord.events, (some.inj queued).symm, .inl empty⟩
      · split at queued
        · exact ⟨s.coord.events ++ [id], (some.inj queued).symm, .inr (by simp [empty])⟩
        · cases queued
    subst same
    refine ⟨?_, ?_, ?_, ?_, ?_, ?_, ?_, inv.persisting, inv.committing, inv.completing, ?_,
      inv.covered, inv.ordered⟩
    · rcases only with rfl | rfl <;> simp
    · intro working
      exact absurd undecided working
    · rintro other (inside | working)
      · rcases only with rfl | rfl
        · cases inside
        · exact .inl (by rw [mem_singleton.1 inside])
      · exact absurd (undecided.symm.trans working) (by simp)
    · rintro other - waiting
      have same : id = other := by simpa using waiting
      exact inv.registered other (.inr (same ▸ sending))
    · intro other busy
      simp at busy
    · intro other busy
      cases busy
    · rintro other (busy | inside)
      · cases busy
      · rcases only with rfl | rfl
        · cases inside
        · rw [mem_singleton.1 inside]
          exact answer
    · intro healthy _
      exact inv.ledger healthy (by simp [sending])

theorem Inv.resume (inv : s.Inv cfg base) (moves : s.resume = some t) : t.Inv cfg base := by
  unfold Coordinated.resume at moves
  split at moves
  case h_2 => cases moves
  case h_1 id waiting =>
    split at moves
    · cases moves
    next signalled =>
      cases moves
      have none_outstanding : ∀ other, ¬s.Outstanding other := by
        intro other outstanding
        rcases inv.awaited other outstanding with same | returned
        · obtain rfl : id = other := by simpa [waiting] using same
          exact signalled (inv.unsignalled id outstanding waiting)
        · simp [waiting] at returned
      exact inv.write none_outstanding s.input s.ahead (by simp) (by simp) (by simp) fun healthy =>
        inv.ledger healthy (by simp [waiting])

theorem Inv.returned (inv : s.Inv cfg base) : Inv cfg base { s with sink := s.sink.finish } :=
  { inv with
    awaited := fun _ _ => .inr rfl
    unsignalled := fun _ _ waiting => nomatch waiting
    registered := fun _ busy => by simp [TxnKafkaSink.finish] at busy
    flushed := fun _ busy => nomatch busy
    answered := fun id busy => inv.answered id (.inr (by simpa [TxnKafkaSink.finish] using busy))
    ledger := fun _ runs => absurd rfl runs }

theorem Inv.retire (inv : s.Inv cfg base) {worker : FinalizeLoop π ν} (fatal : Bool)
    (settled : worker.undecided = none) (left : ∀ id p, worker ≠ .complete id p) :
    Inv cfg base { s with coord := { s.coord with worker, fatal } } := by
  have queued : ∀ {id}, Outstanding { s with coord := { s.coord with worker, fatal } } id →
      s.Outstanding id :=
        fun outstanding => .inl (by simpa [Outstanding, settled] using outstanding)
  refine { inv with
    exclusive := fun working => absurd settled working
    awaited := fun id outstanding => inv.awaited id (queued outstanding)
    unsignalled := fun id outstanding => inv.unsignalled id (queued outstanding)
    persisting := fun id p working => ?_
    committing := fun id p working => ?_
    completing := fun id p working => absurd working (left id p) }
  all_goals
    obtain rfl : worker = _ := working
    cases settled

theorem Inv.dequeue (inv : s.Inv cfg base) (moves : s.dequeue = some t) : t.Inv cfg base := by
  obtain ⟨coord, taken, rfl⟩ := map_eq_some_iff.1 moves
  unfold Coordinator.dequeue at taken
  split at taken
  case h_2 => cases taken
  case h_1 id rest idle events =>
    have last : rest = [] := by
      have single := inv.single
      rw [events] at single
      simpa using single
    subst last
    have queued : id ∈ s.coord.events := by simp [events]
    have waits : s.sink.loop = .waiting id ∨ s.sink.loop = .returned := inv.awaited id (.inl queued)
    have quiet : ∀ other, s.sink.loop ≠ .sending other := by
      intro other sending
      rcases waits with waiting | returned
      · simp [waiting] at sending
      · simp [returned] at sending
    -- whatever the worker does with the checkpoint, the queue is empty now
    have emptied : ∀ (pending : AList fun _ : CheckpointID => PendingCheckpoint π ν)
        (worker : FinalizeLoop π ν), (∀ other, worker.undecided = some other → other = id) →
        (∀ p, worker = .persist id p → s.Healthy) → (∀ other p, worker ≠ .commit other p) →
        (∀ other p, worker ≠ .complete other p) →
        Inv cfg base { s with coord := { s.coord with events := [], pending, worker } } := by
      intro pending worker only healthy uncommitted uncompleted
      refine ⟨Nat.zero_le 1, fun _ => rfl, ?_, ?_, inv.registered, inv.flushed, ?_, ?_, ?_, ?_,
        inv.ledger, inv.covered, inv.ordered⟩
      · rintro other (inside | working)
        · cases inside
        · exact only other working ▸ waits
      · rintro other (inside | working) waiting
        · cases inside
        · exact only other working ▸ inv.unsignalled id (.inl queued) (only other working ▸ waiting)
      · rintro other (sending | inside)
        · exact absurd sending (quiet other)
        · cases inside
      · intro other p working
        have working' : worker = .persist other p := working
        have same : other = id := only other (by rw [working']; rfl)
        exact healthy p (same ▸ working')
      · exact fun other p working => absurd working (uncommitted other p)
      · exact fun other p working => absurd working (uncompleted other p)
    split at taken
    · cases taken
      exact emptied _ _ (by simp [idle, FinalizeLoop.undecided]) (by simp [idle]) (by simp [idle])
        (by simp [idle])
    · split at taken
      · cases taken
        exact emptied _ _ (by simp [idle, FinalizeLoop.undecided]) (by simp [idle]) (by simp [idle])
          (by simp [idle])
      next p found =>
        cases taken
        obtain ⟨q, found', healthy⟩ := inv.answered id (.inr queued)
        obtain rfl : p = q := some.inj (found.symm.trans found')
        cases failed : p.sinkErr with
        | true => exact emptied _ _ (by simp [FinalizeLoop.undecided]) (by simp) (by simp) (by simp)
        | false =>
          exact emptied _ _ (by simp [FinalizeLoop.undecided]) (fun _ _ => healthy failed) (by simp)
            (by simp)

theorem Inv.record (inv : s.Inv cfg base) {event : ProtocolEvent} (store : Storage π ν)
    (progress : event.isAbort = false) (clean : ¬s.Aborted)
    (visible : ∀ id covered, event = .committed id covered →
      ∃ output, Written cfg base covered output ∧ output <+: s.topic.visible) :
    Inv cfg base { s with store, log := s.log ++ [event] } := by
  have clean' : ¬Aborted { s with store, log := s.log ++ [event] } := by
    rintro ⟨other, inside, abort⟩
    rcases mem_append.1 inside with old | new
    · exact clean ⟨other, old, abort⟩
    · rw [mem_singleton.1 new, progress] at abort
      cases abort
  have healthy : s.Healthy → Healthy { s with store, log := s.log ++ [event] } :=
    fun ⟨_, fine⟩ => ⟨clean', fine⟩
  refine ⟨inv.single, inv.exclusive, inv.awaited, inv.unsignalled, inv.registered,
    fun id busy => healthy (inv.flushed id busy), ?_, fun id p working =>
      healthy (inv.persisting id p working), fun id p working =>
      healthy (inv.committing id p working), fun _ _ _ => clean', ?_, ?_, ?_⟩
  · intro id busy
    obtain ⟨p, found, fine⟩ := inv.answered id busy
    exact ⟨p, found, fun success => healthy (fine success)⟩
  · exact fun ⟨_, fine⟩ => inv.ledger ⟨clean, fine⟩
  · intro id covered inside
    rcases mem_append.1 inside with old | new
    · exact inv.covered id covered old
    · exact visible id covered (mem_singleton.1 new).symm
  · refine pairwise_append.2 ⟨inv.ordered, pairwise_singleton _ _, ?_⟩
    intro earlier inside later _ abort
    exact absurd ⟨earlier, inside, abort⟩ clean

theorem Inv.goOn (inv : s.Inv cfg base) {worker : FinalizeLoop π ν} (same :
    worker.undecided = s.coord.worker.undecided) (persisting : ∀ id p, worker ≠ .persist id p)
    (committing : ∀ id p, worker = .commit id p → s.Healthy)
    (completing : ∀ id p, worker ≠ .complete id p) : (s.work worker).Inv cfg base :=
  { inv with
    exclusive := fun working => inv.exclusive (same ▸ working)
    awaited := fun id outstanding => inv.awaited id (outstanding.imp_right same.symm.trans)
    unsignalled := fun id outstanding => inv.unsignalled id (outstanding.imp_right same.symm.trans)
    persisting := fun id p working => absurd working (persisting id p)
    committing
    completing := fun id p working => absurd working (completing id p) }

theorem Inv.persist {saved : Bool} (inv : s.Inv cfg base) (moves : s.persist saved = some t) :
    t.Inv cfg base := by
  unfold Coordinated.persist at moves
  split at moves
  case h_2 => cases moves
  case h_1 id p working =>
    have healthy := inv.persisting id p working
    split at moves
    · cases moves
      have committing : (s.work (.commit id p)).Inv cfg base :=
        inv.goOn (by rw [working]; rfl) (by simp) (fun _ _ _ => healthy) (by simp)
      exact committing.record (s.store.save (Coordinator.preparedData id p)) rfl healthy.1 (by simp)
    · cases moves
      exact inv.goOn (by rw [working]; rfl) (by simp) (by simp) (by simp)

theorem Inv.decided (inv : s.Inv cfg base) {id : CheckpointID} (worker : FinalizeLoop π ν)
    (sink : TxnKafkaSink) {topic : Topic} {log : List ProtocolEvent}
    (deciding : s.coord.worker.undecided = some id) (same : sink.loop = s.sink.loop)
    (settled : worker.undecided = none)
    (t_eq : t = { s with sink, topic, log, coord := { s.coord with worker } })
    (completing : ∀ other p, worker = .complete other p → ¬t.Aborted)
    (ledger : t.Healthy → s.sink.loop ≠ .returned →
      Written cfg base s.ahead (topic.visible ++ sink.staged))
    (covered : t.CommitsCovered cfg base) (ordered : t.AbortsLast) : t.Inv cfg base := by
  subst t_eq
  have empty : s.coord.events = [] := inv.exclusive (by simp [deciding])
  have waits : sink.loop = .waiting id ∨ sink.loop = .returned :=
    same ▸ inv.awaited id (.inr deciding)
  have none_outstanding : ∀ other,
      ¬Outstanding { s with sink, topic, log, coord := { s.coord with worker } } other := by
    simp [Outstanding, empty, settled]
  refine ⟨inv.single, fun _ => empty, ?_, ?_, ?_, ?_, ?_, ?_, ?_, completing, ?_, covered, ordered⟩
  · exact fun other outstanding => absurd outstanding (none_outstanding other)
  · exact fun other outstanding => absurd outstanding (none_outstanding other)
  · intro other busy
    rcases waits with waits | waits <;> simp [waits] at busy
  · intro other busy
    rcases waits with waits | waits <;> simp [waits] at busy
  · rintro other (busy | queued)
    · rcases waits with waits | waits <;> simp [waits] at busy
    · exact absurd (.inl queued) (none_outstanding other)
  iterate 2
    · intro other p working
      obtain rfl : worker = _ := working
      cases settled
  · exact fun healthy runs => ledger healthy (same ▸ runs)

theorem Inv.commit {outcome : CommitOutcome} (inv : s.Inv cfg base)
    (moves : s.commit outcome = some t) : t.Inv cfg base := by
  unfold Coordinated.commit at moves
  split at moves
  case h_2 => cases moves
  case h_1 id p working =>
    have deciding : s.coord.worker.undecided = some id := by rw [working]; rfl
    have healthy := inv.committing id p working
    split at moves
    · cases moves
      exact inv.retire s.coord.fatal rfl (by simp)
    · split at moves
      · cases moves
      next runs =>
        have balanced := inv.ledger healthy runs
        have published : Written cfg base s.ahead ((s.sink.publish s.topic).visible ++ []) := by
          simpa [TxnKafkaSink.publish] using balanced
        have clean :
          ∀ event ∈ s.log ++ [ProtocolEvent.committed id s.ahead], event.isAbort ≠ true := by
          intro event inside abort
          rcases mem_append.1 inside with old | new
          · exact healthy.1 ⟨event, old, abort⟩
          · rw [mem_singleton.1 new] at abort
            cases abort
        have covered : ∀ other records, ProtocolEvent.committed other records ∈
            s.log ++ [.committed id s.ahead] → ∃ output, Written cfg base records output ∧
              output <+: (s.sink.publish s.topic).visible := by
          intro other records inside
          rcases mem_append.1 inside with old | new
          · obtain ⟨output, written, visible⟩ := inv.covered other records old
            exact ⟨output, written, visible.trans (prefix_append _ _)⟩
          · cases mem_singleton.1 new
            exact ⟨_, balanced, prefix_rfl⟩
        have ordered : (s.log ++ [ProtocolEvent.committed id s.ahead]).Pairwise
            fun earlier later => earlier.isAbort = true → later.isAbort = true := by
          refine pairwise_append.2 ⟨inv.ordered, pairwise_singleton _ _, ?_⟩
          intro earlier inside later _ abort
          exact absurd ⟨earlier, inside, abort⟩ healthy.1
        cases moves
        cases outcome with
        | failed => contradiction
        | done =>
          refine inv.decided (.complete id p)
            (s.sink.beginTransaction.signal id) deciding rfl rfl rfl
            ?_ (fun _ _ => published) covered ordered
          rintro _ _ - ⟨event, inside, abort⟩
          exact clean event inside abort
        | unknown =>
          exact inv.decided .report s.sink.beginTransaction deciding rfl rfl rfl (by simp)
            (fun _ _ => published) covered ordered

theorem Inv.complete {saved : Bool} (inv : s.Inv cfg base) (moves : s.complete saved = some t) :
    t.Inv cfg base := by
  unfold Coordinated.complete at moves
  split at moves
  case h_2 => cases moves
  case h_1 id p working =>
    have clean := inv.completing id p working
    split at moves
    next store _ =>
      cases moves
      have retired : Inv cfg base { s with coord := { s.coord with worker := .offsets id p } } :=
        inv.retire s.coord.fatal rfl (by simp)
      exact retired.record store rfl clean (by simp)
    · cases moves
      exact inv.retire s.coord.fatal rfl (by simp)

theorem Inv.abort {succeeds : Bool} (inv : s.Inv cfg base) (moves : s.abort succeeds = some t) :
    t.Inv cfg base := by
  unfold Coordinated.abort at moves
  split at moves
  case h_2 => cases moves
  case h_1 id working =>
    have deciding : s.coord.worker.undecided = some id := by rw [working]; rfl
    have covered : ∀ other records, ProtocolEvent.committed other records ∈
        s.log ++ [.aborted id] → ∃ output, Written cfg base records output ∧
          output <+: s.topic.visible := by
      intro other records inside
      rcases mem_append.1 inside with old | new
      · exact inv.covered other records old
      · cases mem_singleton.1 new
    have ordered : (s.log ++ [ProtocolEvent.aborted id]).Pairwise
        fun earlier later => earlier.isAbort = true → later.isAbort = true := by
      refine pairwise_append.2 ⟨inv.ordered, pairwise_singleton _ _, ?_⟩
      intro earlier _ later new _
      rw [mem_singleton.1 new]
      rfl
    have aborted : ∃ event ∈ s.log ++ [ProtocolEvent.aborted id], event.isAbort = true :=
      ⟨_, mem_append_right _ (mem_singleton_self _), rfl⟩
    cases moves
    cases succeeds with
    | true =>
      exact inv.decided .report (s.sink.beginTransaction.signal id) deciding rfl rfl rfl (by simp)
        (fun healthy => absurd aborted healthy.1) covered ordered
    | false =>
      exact inv.decided .report s.sink deciding rfl rfl rfl (by simp)
        (fun healthy => absurd aborted healthy.1) covered ordered

theorem inv_step {action : ProtocolAction π ν} (inv : s.Inv cfg base)
    (late : ∀ flushed, action = .flush flushed → s.Aborted → flushed = false)
    (moves : step cfg s action = some t) : t.Inv cfg base := by
  cases action with
  | injected id offsets | snapshotted id state =>
    cases moves
    exact inv.learn _ (lookup_insert_ensure s.coord id _ rfl)
  | receive sent => exact inv.receive moves
  | flush flushed => exact inv.flush (late flushed rfl) moves
  | notify => exact inv.notify moves
  | send => exact inv.send moves
  | resume => exact inv.resume moves
  | unwind =>
    simp only [step, unwind] at moves
    split at moves
    · obtain ⟨-, rfl⟩ := of_ite_some moves
      exact inv.returned
    · cases moves
  | finish =>
    simp only [step, finish, ite_none_right_eq_some] at moves
    obtain rfl := some.inj moves.2
    exact inv.returned
  | dequeue => exact inv.dequeue moves
  | persist saved => exact inv.persist moves
  | commit outcome => exact inv.commit moves
  | complete saved => exact inv.complete moves
  | commitOffsets =>
    simp only [step, commitOffsets] at moves
    split at moves
    · cases moves
      exact inv.retire s.coord.fatal rfl (by simp)
    · cases moves
  | abort succeeds => exact inv.abort moves
  | report =>
    simp only [step, report] at moves
    split at moves
    · cases moves
      exact inv.retire true rfl (by simp)
    · cases moves
  | arrive _ | relay | cancel | leave | stop =>
    simp only [step, ite_none_left_eq_some, ite_none_right_eq_some] at moves
    obtain rfl := some.inj moves.2
    exact { inv with }
  | close | hardCancel =>
    cases moves
    exact { inv with }

end Coordinated

/-- In every run in which the hard context is cancelled before the sink flushes the next barrier
after an abort, and the client's calls then fail: nothing is stored, committed or completed after an
abort, and the output of every record ahead of a committed barrier is visible. -/
theorem no_commit_past_abort {π ν : Type} (cfg : TxnKafkaConfig) (store : Storage π ν)
    (topic : Topic) (s : Coordinated π ν)
    (reach : Reach (Coordinated.step cfg)
      (fun s action => s.CancelledInTime action ∧ s.FailsCancelled action) (.start store topic) s) :
    s.AbortsLast ∧ s.CommitsCovered cfg topic.visible := by
  have inv : s.Inv cfg topic.visible := reach.invariant (Coordinated.inv_start store topic)
    fun _ _ _ inv ⟨inTime, fails⟩ moves => Coordinated.inv_step inv
      (fun _ is aborted => by subst is; exact fails (inTime aborted)) moves
  exact ⟨inv.ordered, inv.covered⟩

def arrival (number : Nat) : List (ProtocolAction Unit Unit) :=
  [.injected ⟨0, number, .periodic⟩ none, .snapshotted ⟨0, number, .periodic⟩ (),
    .arrive {}, .arrive (.newBarrier ⟨0, number, .periodic⟩)]

def writeAndFlush (flushed : Bool) : List (ProtocolAction Unit Unit) :=
  [.receive true, .flush flushed, .notify, .send]

def finalized : List (ProtocolAction Unit Unit) :=
  [.dequeue, .persist true, .commit .done, .complete true, .commitOffsets]

/-- The first checkpoint completes; the second fails, and the third is flushed only after the
cancellation. -/
theorem no_commit_past_abort_cancelled :
    ∃ s : Coordinated Unit Unit, s.log = [.prepared ⟨0, 1, .periodic⟩,
      .committed ⟨0, 1, .periodic⟩ [{}], .completed ⟨0, 1, .periodic⟩,
      .aborted ⟨0, 2, .periodic⟩, .aborted ⟨0, 3, .periodic⟩] ∧ s.AbortsLast ∧
        s.CommitsCovered {} [] := by
  obtain ⟨s, reach, facts⟩ := Reach.exists_of_guarded (Coordinated.step {})
    (fun s action => s.CancelledInTime action ∧ s.FailsCancelled action) (.start [] {})
    (arrival 1 ++ arrival 2 ++ arrival 3 ++ writeAndFlush true ++ finalized ++ [.resume] ++
      writeAndFlush false ++ [.dequeue, .abort true, .report, .relay, .cancel, .resume,
        .receive false, .flush false, .notify, .send, .dequeue, .abort true])
    (fun s => decide (s.log = [.prepared ⟨0, 1, .periodic⟩, .committed ⟨0, 1, .periodic⟩ [{}],
      .completed ⟨0, 1, .periodic⟩, .aborted ⟨0, 2, .periodic⟩, .aborted ⟨0, 3, .periodic⟩]))
    (by decide)
  exact ⟨s, of_decide_eq_true facts, no_commit_past_abort {} [] {} s reach⟩

/-- The flush of the first checkpoint fails; the second is flushed before the cancellation
arrives, and is stored, committed and completed. -/
theorem committed_past_abort :
    ¬∀ s : Coordinated Unit Unit,
      Reach (Coordinated.step {}) Coordinated.FailsCancelled (.start [] {}) s →
      s.AbortsLast := by
  intro always
  obtain ⟨s, reach, facts⟩ :=
    Reach.exists_of_guarded (Coordinated.step {}) Coordinated.FailsCancelled
    (.start [] {})
    (arrival 1 ++ arrival 2 ++ writeAndFlush false ++ [.dequeue, .abort true, .resume] ++
      writeAndFlush true ++ [.report] ++ finalized)
    (fun s => decide (s.log = [.aborted ⟨0, 1, .periodic⟩, .prepared ⟨0, 2, .periodic⟩,
      .committed ⟨0, 2, .periodic⟩ [{}, {}], .completed ⟨0, 2, .periodic⟩])) (by decide)
  have ordered := always s reach
  rw [Coordinated.AbortsLast, of_decide_eq_true facts] at ordered
  exact absurd ordered (by decide)

end Weibo.Engine
