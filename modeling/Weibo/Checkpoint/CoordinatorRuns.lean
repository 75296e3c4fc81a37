import Mathlib.Data.List.Perm.Subperm
import Weibo.Checkpoint.Coordinator
import Weibo.Lib.History
import Weibo.Lib.Transition

/-!
# The coordinator under concurrent callers

Goroutines call the coordinator while the finalize worker runs. `OnSinkPrepared` registers itself on
the send wait-group unless the coordinator is halted and sends on the event channel; the first
`Stop` halts, waits for the wait-group and closes the channel.
-/

namespace Weibo.Checkpoint

open List Option

open Transition (Reach of_ite_some of_ite_none)
open History (Justified filterMap_snoc)
open Coordinator (ensure preparedData)

/-- Which of the optional functions of a `Coordinator` are set. -/
structure CoordinatorConfig where
  abortSink : Bool := true
  commitOffsets : Bool := true
  onCompleted : Bool := true

inductive ExternalCall (π ν : Type) where
  | save (data : CheckpointData π ν)
  | commitSink (id : CheckpointID)
  | updateStatus (id : CheckpointID)
  | commitOffsets (id : CheckpointID) (offsets : π)
  | abortSink (id : CheckpointID)
  deriving DecidableEq

inductive CoordinatorEvent (π ν : Type) where
  | injected (id : CheckpointID) (offsets : Option π)
  | snapshotted (id : CheckpointID) (state : ν)
  | prepared (id : CheckpointID) (sinkErr : Bool)
  | queued (id : CheckpointID)
  | taken (id : CheckpointID)
  | called (call : ExternalCall π ν)
  | returned (call : ExternalCall π ν) (ok : Bool)
  | completed (id : CheckpointID)
  deriving DecidableEq

namespace CoordinatorEvent

variable {π ν : Type}

def injectedID : CoordinatorEvent π ν → Option CheckpointID
  | .injected id _ => some id
  | _ => none

def snapshottedID : CoordinatorEvent π ν → Option CheckpointID
  | .snapshotted id _ => some id
  | _ => none

def preparedID : CoordinatorEvent π ν → Option CheckpointID
  | .prepared id _ => some id
  | _ => none

def queuedID : CoordinatorEvent π ν → Option CheckpointID
  | .queued id => some id
  | _ => none

def takenID : CoordinatorEvent π ν → Option CheckpointID
  | .taken id => some id
  | _ => none

def endedID : CoordinatorEvent π ν → Option CheckpointID
  | .called (.commitSink id) | .called (.abortSink id) => some id
  | _ => none

def offsetsOf (log : List (CoordinatorEvent π ν)) (id : CheckpointID) : Option π :=
  (log.findSome? fun
    | .injected other offsets => if other = id then some offsets else none
    | _ => none).join

def stateOf (log : List (CoordinatorEvent π ν)) (id : CheckpointID) : Option ν :=
  log.findSome? fun
    | .snapshotted other state => if other = id then some state else none
    | _ => none

variable {log : List (CoordinatorEvent π ν)} {id : CheckpointID}

theorem offsetsOf_snoc {event : CoordinatorEvent π ν} (other : event.injectedID ≠ some id) :
    offsetsOf (log ++ [event]) id = offsetsOf log id := by
  rw [offsetsOf, offsetsOf, List.findSome?_append]
  cases event with
  | injected injected offsets =>
    have differs : injected ≠ id := fun same => other (congrArg some same)
    simp [differs]
  | _ => simp

theorem offsetsOf_injected (fresh : id ∉ log.filterMap injectedID) (offsets : Option π) :
    offsetsOf (log ++ [.injected id offsets]) id = offsets ∧ offsetsOf log id = none := by
  have missing : (log.findSome? fun
      | .injected other offsets => if other = id then some offsets else none
      | _ => none) = none := by
    refine List.findSome?_eq_none_iff.2 fun event mem => ?_
    split
    next other found =>
      refine if_neg fun same => fresh (mem_filterMap.2 ⟨_, mem, ?_⟩)
      exact congrArg some same
    next => rfl
  constructor
  · rw [offsetsOf, List.findSome?_append, missing]
    simp
  · rw [offsetsOf, missing]
    rfl

theorem stateOf_snoc {event : CoordinatorEvent π ν} (other : event.snapshottedID ≠ some id) :
    stateOf (log ++ [event]) id = stateOf log id := by
  rw [stateOf, stateOf, List.findSome?_append]
  cases event with
  | snapshotted snapshotted state =>
    have differs : snapshotted ≠ id := fun same => other (congrArg some same)
    simp [differs]
  | _ => simp

theorem stateOf_snapshotted (fresh : id ∉ log.filterMap snapshottedID) (state : ν) :
    stateOf (log ++ [.snapshotted id state]) id = some state := by
  have missing : stateOf log id = none := by
    refine List.findSome?_eq_none_iff.2 fun event mem => ?_
    split
    next other found =>
      refine if_neg fun same => fresh (mem_filterMap.2 ⟨_, mem, ?_⟩)
      exact congrArg some same
    next => rfl
  rw [stateOf] at missing
  rw [stateOf, List.findSome?_append, missing]
  simp

end CoordinatorEvent

open CoordinatorEvent (endedID injectedID offsetsOf offsetsOf_snoc preparedID queuedID snapshottedID
    stateOf stateOf_snoc takenID)

/-- How far the first call of `Stop` is in `stopOnce.Do`. -/
inductive StopOnce where
  | fresh
  | entered
  | waiting
  | closing
  | done
  deriving DecidableEq

structure Coordination (π ν : Type) where
  coord : Coordinator π ν := {}
  closed : Bool := false
  calling : Bool := false
  exited : Bool := false
  recorded : List CheckpointID := []
  registered : List CheckpointID := []
  sent : List CheckpointID := []
  sendWg : Nat := 0
  once : StopOnce := .fresh
  stoppers : Nat := 0
  panicked : Bool := false
  log : List (CoordinatorEvent π ν) := []

inductive CoordinatorAction (π ν : Type) where
  | injected (id : CheckpointID) (offsets : Option π)
  | snapshotted (id : CheckpointID) (state : ν)
  | prepared (id : CheckpointID) (sinkErr : Bool)
  | register (id : CheckpointID)
  | send (id : CheckpointID)
  | leave (id : CheckpointID)
  | stop
  | halt
  | wait
  | close
  | stopped
  | dequeue
  | call
  | skip
  | ret (ok : Bool)
  | report
  | receiveFatal
  | exit

def FinalizeLoop.call {π ν : Type} (cfg : CoordinatorConfig) :
    FinalizeLoop π ν → Option (ExternalCall π ν)
  | .persist id p => some (.save (preparedData id p))
  | .commit id _ => some (.commitSink id)
  | .complete id _ => some (.updateStatus id)
  | .offsets id p => if cfg.commitOffsets then p.offsets.map (.commitOffsets id) else none
  | .abort id => if cfg.abortSink then some (.abortSink id) else none
  | .idle | .report => none

def FinalizeLoop.next {π ν : Type} (ok : Bool) : FinalizeLoop π ν → FinalizeLoop π ν
  | .persist id p => if ok then .commit id p else .abort id
  | .commit id p => if ok then .complete id p else .report
  | .complete id p => if ok then .offsets id p else .report
  | .offsets _ _ | .idle | .report => .idle
  | .abort _ => .report

def FinalizeLoop.holds {π ν : Type} :
    FinalizeLoop π ν → Option (CheckpointID × PendingCheckpoint π ν)
  | .persist id p | .commit id p | .complete id p | .offsets id p => some (id, p)
  | .idle | .abort _ | .report => none

def FinalizeLoop.achieved {π ν : Type} : FinalizeLoop π ν → List (CoordinatorEvent π ν)
  | .commit id p => [.returned (.save (preparedData id p)) true]
  | .complete id _ => [.returned (.commitSink id) true]
  | .offsets id _ => [.returned (.commitSink id) true, .returned (.updateStatus id) true]
  | .idle | .persist _ _ | .abort _ | .report => []

namespace Coordination

variable {π ν : Type}

def record (s : Coordination π ν) (event : CoordinatorEvent π ν) : Coordination π ν :=
  { s with log := s.log ++ [event] }

@[simp]
theorem log_record (s : Coordination π ν) (event : CoordinatorEvent π ν) :
    (s.record event).log = s.log ++ [event] := rfl

/-- `OnSinkPrepared` reads `halted`: a halted coordinator is left alone. -/
def register (s : Coordination π ν) (id : CheckpointID) : Option (Coordination π ν) :=
  if id ∈ s.recorded then
    let left := { s with recorded := s.recorded.erase id }
    some (if s.coord.halted then left
      else { left with registered := s.registered ++ [id], sendWg := s.sendWg + 1 })
  else none

/-- `OnSinkPrepared` sends: on a closed channel that panics, on a full one it blocks. -/
def send (s : Coordination π ν) (id : CheckpointID) : Option (Coordination π ν) :=
  if id ∈ s.registered then
    if s.closed then some { s with panicked := true }
    else if s.coord.events.length < eventBuf then
      some ({ s with
        registered := s.registered.erase id
        sent := s.sent ++ [id]
        coord := { s.coord with events := s.coord.events ++ [id] } }.record (.queued id))
    else none
  else none

/-- `OnSinkPrepared` leaves `sendWg`. -/
def leave (s : Coordination π ν) (id : CheckpointID) : Option (Coordination π ν) :=
  if id ∈ s.sent then some { s with sent := s.sent.erase id, sendWg := s.sendWg - 1 } else none

def dequeue (s : Coordination π ν) : Option (Coordination π ν) :=
  match s.coord.events with
  | [] => none
  | id :: _ => s.coord.dequeue.map fun coord => { s with coord }.record (.taken id)

def call (cfg : CoordinatorConfig) (s : Coordination π ν) : Option (Coordination π ν) :=
  if s.calling then none
  else (s.coord.worker.call cfg).map fun call => { s with calling := true }.record (.called call)

def skip (cfg : CoordinatorConfig) (s : Coordination π ν) : Option (Coordination π ν) :=
  match s.coord.worker with
  | .offsets _ _ | .abort _ =>
    if (s.coord.worker.call cfg).isSome then none
    else some { s with coord := { s.coord with worker := s.coord.worker.next true } }
  | _ => none

/-- The worker's call ends. `OnCompleted` is called behind a successful `UpdateStatus`. -/
def ret (cfg : CoordinatorConfig) (s : Coordination π ν) (ok : Bool) : Option (Coordination π ν) :=
  if s.calling then
    (s.coord.worker.call cfg).map fun call =>
      let moved := { s with
        calling := false
        coord := { s.coord with worker := s.coord.worker.next ok } }.record (.returned call ok)
      match call with
      | .updateStatus id => if ok && cfg.onCompleted then moved.record (.completed id) else moved
      | _ => moved
  else none

def step (cfg : CoordinatorConfig) (s : Coordination π ν) :
    CoordinatorAction π ν → Option (Coordination π ν)
  | .injected id offsets =>
    some ({ s with coord := s.coord.onBarrierInjected id offsets }.record (.injected id offsets))
  | .snapshotted id state =>
    some ({ s with coord := s.coord.onStateSnapshot id state }.record (.snapshotted id state))
  | .prepared id sinkErr =>
    some ({ s with
      coord := s.coord.onSinkPrepared id sinkErr
      recorded := s.recorded ++ [id] }.record (.prepared id sinkErr))
  | .register id => s.register id
  | .send id => s.send id
  | .leave id => s.leave id
  | .stop => some { s with
      stoppers := s.stoppers + 1
      once := if s.once = .fresh then .entered else s.once }
  | .halt =>
    if s.once = .entered then
      some { s with once := .waiting, coord := { s.coord with halted := true } }
    else none
  | .wait => if s.once = .waiting ∧ s.sendWg = 0 then some { s with once := .closing } else none
  | .close => if s.once = .closing then some { s with once := .done, closed := true } else none
  | .stopped =>
    if s.once = .done ∧ s.exited ∧ 0 < s.stoppers then some { s with stoppers := s.stoppers - 1 }
    else none
  | .dequeue => s.dequeue
  | .call => s.call cfg
  | .skip => s.skip cfg
  | .ret ok => s.ret cfg ok
  | .report =>
    match s.coord.worker with
    | .report => some { s with coord := { s.coord with worker := .idle, fatal := true } }
    | _ => none
  | .receiveFatal =>
    if s.coord.fatal then some { s with coord := { s.coord with fatal := false } } else none
  | .exit =>
    match s.coord.worker with
    | .idle => if s.coord.events = [] ∧ s.closed then some { s with exited := true } else none
    | _ => none

/-- The offsets, the state and the answer of the sink are reported once each, in this order. -/
def InOrder (s : Coordination π ν) : CoordinatorAction π ν → Prop
  | .injected id _ => id ∉ s.log.filterMap injectedID ∧
      id ∉ s.log.filterMap snapshottedID ∧
      id ∉ s.log.filterMap preparedID
  | .snapshotted id _ => id ∉ s.log.filterMap snapshottedID ∧
      id ∉ s.log.filterMap preparedID
  | .prepared id _ => id ∉ s.log.filterMap preparedID
  | _ => True

instance (s : Coordination π ν) : (action : CoordinatorAction π ν) → Decidable (s.InOrder action)
  | .injected _ _ => inferInstanceAs (Decidable (_ ∧ _ ∧ _))
  | .snapshotted _ _ => inferInstanceAs (Decidable (_ ∧ _))
  | .prepared _ _ => inferInstanceAs (Decidable (¬_))
  | .register _ | .send _ | .leave _ | .stop | .halt | .wait | .close | .stopped | .dequeue | .call
  | .skip | .ret _ | .report | .receiveFatal | .exit => inferInstanceAs (Decidable True)

variable {cfg : CoordinatorConfig} {s t : Coordination π ν} {action : CoordinatorAction π ν}

/-! ## What the moves do -/

theorem of_dequeue (moves : s.dequeue = some t) : ∃ id rest pending worker,
    s.coord.events = id :: rest ∧ s.coord.worker = .idle ∧
      t = { s with coord := { s.coord with events := rest, pending, worker } }.record (.taken id) ∧
      (pending = s.coord.pending ∨ pending = s.coord.pending.erase id) ∧
      (worker = .idle ∨ worker = .abort id ∨
        ∃ p, s.coord.pending.lookup id = some p ∧ worker = .persist id p) := by
  simp only [dequeue] at moves
  cases events : s.coord.events with
  | nil => simp [events] at moves
  | cons id rest =>
    simp only [events, map_eq_some_iff] at moves
    obtain ⟨coord, takes, rfl⟩ := moves
    cases idle : s.coord.worker with
    | idle =>
      simp only [Coordinator.dequeue, events, idle] at takes
      refine ⟨id, rest, ?_⟩
      split at takes
      · obtain rfl := some.inj takes
        exact ⟨_, _, rfl, rfl, rfl, .inl rfl, .inl rfl⟩
      · split at takes
        next absent =>
          obtain rfl := some.inj takes
          exact ⟨_, _, rfl, rfl, rfl, .inr rfl, .inl rfl⟩
        next p found =>
          obtain rfl := some.inj takes
          refine ⟨_, _, rfl, rfl, rfl, .inr rfl, ?_⟩
          split
          · exact .inr (.inl rfl)
          · exact .inr (.inr ⟨p, found, rfl⟩)
    | persist _ _ | commit _ _ | complete _ _ | offsets _ _ | abort _ | report =>
      simp [Coordinator.dequeue, events, idle] at takes

theorem of_ret {ok : Bool} (moves : s.ret cfg ok = some t) : ∃ call extra,
    s.calling = true ∧ s.coord.worker.call cfg = some call ∧
      t = { s with
        calling := false
        coord := { s.coord with worker := s.coord.worker.next ok }
        log := s.log ++ [.returned call ok] ++ extra } ∧
      (extra = [] ∨ ∃ id, call = .updateStatus id ∧ ok = true ∧ extra = [.completed id]) := by
  simp only [ret] at moves
  split at moves
  next calling =>
    obtain ⟨call, there, rfl⟩ := map_eq_some_iff.1 moves
    refine ⟨call, ?_⟩
    split
    next id =>
      split
      next both =>
        refine ⟨[.completed id], calling, there, rfl, .inr ⟨id, rfl, ?_, rfl⟩⟩
        simp only [Bool.and_eq_true] at both
        exact both.1
      next => exact ⟨[], calling, there, by simp [record], .inl rfl⟩
    next => exact ⟨[], calling, there, by simp [record], .inl rfl⟩
  next => cases moves

structure Quiet (s t : Coordination π ν) : Prop where
  log : t.log = s.log
  pending : t.coord.pending = s.coord.pending
  events : t.coord.events = s.coord.events
  worker : t.coord.worker = s.coord.worker
  calling : t.calling = s.calling
  senders : (t.recorded ++ t.registered).Subperm (s.recorded ++ s.registered)

inductive Move (cfg : CoordinatorConfig) (s : Coordination π ν) : Coordination π ν → Prop
  | quiet {t : Coordination π ν} (same : Quiet s t) : Move cfg s t
  | injected (id : CheckpointID) (offsets : Option π) (ordered : s.InOrder (.injected id offsets)) :
      Move cfg s
        ({ s with coord := s.coord.onBarrierInjected id offsets }.record (.injected id offsets))
  | snapshotted (id : CheckpointID) (state : ν) (ordered : s.InOrder (.snapshotted id state)) :
      Move cfg s
        ({ s with coord := s.coord.onStateSnapshot id state }.record (.snapshotted id state))
  | prepared (id : CheckpointID) (sinkErr : Bool) (ordered : s.InOrder (.prepared id sinkErr)) :
      Move cfg s ({ s with
        coord := s.coord.onSinkPrepared id sinkErr
        recorded := s.recorded ++ [id] }.record (.prepared id sinkErr))
  | queued (id : CheckpointID) (registered sent : List CheckpointID)
      (sender : s.registered.Perm (id :: registered)) :
      Move cfg s ({ s with
        registered
        sent
        coord := { s.coord with events := s.coord.events ++ [id] } }.record (.queued id))
  | taken (id : CheckpointID) (rest : List CheckpointID)
      (pending : AList fun _ : CheckpointID => PendingCheckpoint π ν) (worker : FinalizeLoop π ν)
      (events : s.coord.events = id :: rest) (idle : s.coord.worker = .idle)
      (table : pending = s.coord.pending ∨ pending = s.coord.pending.erase id)
      (goes : worker = .idle ∨ worker = .abort id ∨
        ∃ p, s.coord.pending.lookup id = some p ∧ worker = .persist id p) :
      Move cfg s
        ({ s with coord := { s.coord with events := rest, pending, worker } }.record (.taken id))
  | called (call : ExternalCall π ν) (free : s.calling = false)
      (there : s.coord.worker.call cfg = some call) :
      Move cfg s ({ s with calling := true }.record (.called call))
  | returned (call : ExternalCall π ν) (ok : Bool) (extra : List (CoordinatorEvent π ν))
      (there : s.coord.worker.call cfg = some call)
      (completes : extra = [] ∨ ∃ id, call = .updateStatus id ∧ ok = true ∧
        extra = [.completed id]) :
      Move cfg s { s with
        calling := false
        coord := { s.coord with worker := s.coord.worker.next ok }
        log := s.log ++ [.returned call ok] ++ extra }
  | passed (worker : FinalizeLoop π ν) (fatal : Bool) (ends : worker = .idle ∨ worker = .report) :
      Move cfg s { s with coord := { s.coord with worker, fatal } }

theorem move_of_step (ordered : s.InOrder action)
    (moves : s.step cfg action = some t) : Move cfg s t := by
  cases action with
  | injected id offsets =>
    obtain rfl := some.inj moves
    exact .injected id offsets ordered
  | snapshotted id state =>
    obtain rfl := some.inj moves
    exact .snapshotted id state ordered
  | prepared id sinkErr =>
    obtain rfl := some.inj moves
    exact .prepared id sinkErr ordered
  | register id =>
    simp only [step, register] at moves
    obtain ⟨there, rfl⟩ := of_ite_some moves
    split
    · have fewer : (s.recorded.erase id ++ s.registered).Sublist (s.recorded ++ s.registered) :=
        erase_sublist.append (.refl _)
      exact .quiet ⟨rfl, rfl, rfl, rfl, rfl, fewer.subperm⟩
    · have moved :
        (s.recorded.erase id ++ (s.registered ++ [id])).Perm (s.recorded ++ s.registered) := by
        rw [← append_assoc]
        exact (perm_append_singleton _ _).trans
          ((perm_cons_erase there).symm.append_right s.registered)
      exact .quiet ⟨rfl, rfl, rfl, rfl, rfl, moved.subperm⟩
  | send id =>
    simp only [step, send] at moves
    split at moves
    next there =>
      split at moves
      · obtain rfl := some.inj moves
        exact .quiet ⟨rfl, rfl, rfl, rfl, rfl, .refl _⟩
      · obtain ⟨-, rfl⟩ := of_ite_some moves
        exact .queued id _ _ (perm_cons_erase there)
    next => cases moves
  | leave id =>
    simp only [step, leave] at moves
    obtain ⟨-, rfl⟩ := of_ite_some moves
    exact .quiet ⟨rfl, rfl, rfl, rfl, rfl, .refl _⟩
  | dequeue =>
    obtain ⟨id, rest, pending, worker, events, idle, rfl, table, goes⟩ := of_dequeue moves
    exact .taken id rest pending worker events idle table goes
  | call =>
    simp only [step, call] at moves
    split at moves
    · cases moves
    next free =>
      obtain ⟨call, there, rfl⟩ := map_eq_some_iff.1 moves
      exact .called call (by simpa using free) there
  | skip =>
    simp only [step, skip] at moves
    split at moves
    next worker =>
      obtain ⟨-, rfl⟩ := of_ite_none moves
      exact .passed _ s.coord.fatal (.inl (by rw [worker]; rfl))
    next worker =>
      obtain ⟨-, rfl⟩ := of_ite_none moves
      exact .passed _ s.coord.fatal (.inr (by rw [worker]; rfl))
    next => cases moves
  | ret ok =>
    obtain ⟨call, extra, -, there, rfl, completes⟩ := of_ret moves
    exact .returned call ok extra there completes
  | report =>
    simp only [step] at moves
    split at moves
    · obtain rfl := some.inj moves
      exact .passed _ true (.inl rfl)
    · cases moves
  | stop =>
    obtain rfl := some.inj moves
    exact .quiet ⟨rfl, rfl, rfl, rfl, rfl, .refl _⟩
  | halt | wait | close | stopped | receiveFatal =>
    obtain ⟨-, rfl⟩ := of_ite_some moves
    exact .quiet ⟨rfl, rfl, rfl, rfl, rfl, .refl _⟩
  | exit =>
    simp only [step] at moves
    split at moves
    · obtain ⟨-, rfl⟩ := of_ite_some moves
      exact .quiet ⟨rfl, rfl, rfl, rfl, rfl, .refl _⟩
    · cases moves

/-! ## Nothing is sent on the closed channel -/

structure Draining (s : Coordination π ν) : Prop where
  counted : s.sendWg = s.registered.length + s.sent.length
  halted : s.once = .waiting ∨ s.once = .closing ∨ s.once = .done → s.coord.halted = true
  drained : s.once = .closing ∨ s.once = .done → s.sendWg = 0
  shut : s.closed = true → s.once = .done
  intact : s.panicked = false

theorem Draining.step (inv : Draining s) (moves : s.step cfg action = some t) : Draining t := by
  cases action with
  | injected id offsets | snapshotted id state | prepared id sinkErr =>
    obtain rfl := some.inj moves
    exact { inv with }
  | register id =>
    simp only [Coordination.step, register] at moves
    obtain ⟨-, rfl⟩ := of_ite_some moves
    split
    · exact { inv with }
    next running =>
      -- a coordinator that is not halted has not begun to wait, so the counter may rise
      have early : ¬(s.once = .waiting ∨ s.once = .closing ∨ s.once = .done) := fun late =>
        running (inv.halted late)
      refine { inv with counted := ?_, drained := fun late => absurd (.inr late) early }
      have counted := inv.counted
      simp only [length_append, length_singleton]
      omega
  | send id =>
    simp only [Coordination.step, send] at moves
    split at moves
    next there =>
      have busy : 0 < s.sendWg := by
        have some : 0 < s.registered.length := length_pos_of_mem there
        have counted := inv.counted
        omega
      split at moves
      next closed =>
        have none := inv.drained (.inr (inv.shut closed))
        omega
      next =>
        obtain ⟨-, rfl⟩ := of_ite_some moves
        refine { inv with counted := ?_ }
        have counted := inv.counted
        have one : 0 < s.registered.length := length_pos_of_mem there
        simp only [record, length_erase_of_mem there, length_append,
          length_singleton]
        omega
    next => cases moves
  | leave id =>
    simp only [Coordination.step, leave] at moves
    obtain ⟨there, rfl⟩ := of_ite_some moves
    have counted := inv.counted
    have one : 0 < s.sent.length := length_pos_of_mem there
    refine { inv with counted := ?_, drained := fun late => ?_ }
    · simp only [length_erase_of_mem there]
      omega
    · have none := inv.drained late
      omega
  | stop =>
    obtain rfl := some.inj moves
    by_cases fresh : s.once = .fresh
    · have going : s.closed ≠ true := fun closed => absurd (inv.shut closed) (by simp [fresh])
      exact ⟨inv.counted, by simp [fresh], by simp [fresh], fun closed => absurd closed going,
        inv.intact⟩
    · rw [if_neg fresh]
      exact { inv with }
  | halt =>
    obtain ⟨entered, rfl⟩ := of_ite_some moves
    exact ⟨inv.counted, fun _ => rfl,
      by simp, fun closed => absurd (inv.shut closed) (by simp [entered]),
      inv.intact⟩
  | wait =>
    obtain ⟨⟨waiting, none⟩, same⟩ := ite_none_right_eq_some.1 moves
    obtain rfl := some.inj same
    exact ⟨inv.counted, fun _ => inv.halted (.inl waiting), fun _ => none,
      fun closed => absurd (inv.shut closed) (by simp [waiting]), inv.intact⟩
  | close =>
    obtain ⟨closing, rfl⟩ := of_ite_some moves
    exact ⟨inv.counted, fun _ => inv.halted (.inr (.inl closing)),
      fun _ => inv.drained (.inl closing),
      fun _ => rfl, inv.intact⟩
  | stopped | receiveFatal =>
    obtain ⟨-, rfl⟩ := of_ite_some moves
    exact { inv with }
  | dequeue =>
    obtain ⟨id, rest, pending, worker, -, -, rfl, -, -⟩ := of_dequeue moves
    exact { inv with }
  | call =>
    simp only [Coordination.step, call] at moves
    split at moves
    · cases moves
    · obtain ⟨call, -, rfl⟩ := map_eq_some_iff.1 moves
      exact { inv with }
  | skip =>
    simp only [Coordination.step, skip] at moves
    split at moves
    iterate 2
      · obtain ⟨-, rfl⟩ := of_ite_none moves
        exact { inv with }
    · cases moves
  | ret ok =>
    obtain ⟨call, extra, -, -, rfl, -⟩ := of_ret moves
    exact { inv with }
  | report =>
    simp only [Coordination.step] at moves
    split at moves
    · obtain rfl := some.inj moves
      exact { inv with }
    · cases moves
  | exit =>
    simp only [Coordination.step] at moves
    split at moves
    · obtain ⟨-, rfl⟩ := of_ite_some moves
      exact { inv with }
    · cases moves

/-! ## The way of a checkpoint through the queue -/

structure Journey (s : Coordination π ν) : Prop where
  fifo : s.log.filterMap queuedID =
    s.log.filterMap takenID ++ s.coord.events
  distinct : (s.log.filterMap preparedID).Nodup
  inside : (s.recorded ++ (s.registered ++ s.log.filterMap queuedID)).Subperm
    (s.log.filterMap preparedID)

theorem Journey.nodup (inv : Journey s) : (s.log.filterMap takenID ++ s.coord.events).Nodup := by
  obtain ⟨all, perm, sub⟩ := inv.inside
  have distinct : (s.recorded ++ (s.registered ++ s.log.filterMap queuedID)).Nodup :=
    perm.nodup_iff.1 (inv.distinct.sublist sub)
  rw [← inv.fifo]
  exact (nodup_append.1 (nodup_append.1 distinct).2.1).2.1

variable {id : CheckpointID}

theorem Journey.fresh (inv : Journey s) {rest : List CheckpointID}
    (events : s.coord.events = id :: rest) : id ∉ s.log.filterMap takenID := by
  have distinct := inv.nodup
  rw [events] at distinct
  exact fun mem => (nodup_append.1 distinct).2.2 id mem id mem_cons_self rfl

theorem Journey.prepared (inv : Journey s) (queued : id ∈ s.coord.events) :
    id ∈ s.log.filterMap preparedID := by
  refine inv.inside.subset ?_
  rw [inv.fifo]
  simp [queued]

variable {event : CoordinatorEvent π ν}

theorem Journey.silent (inv : Journey s) (queued : event.queuedID = none)
    (taken : event.takenID = none) (prepared : event.preparedID = none)
    (log : t.log = s.log ++ [event]) (events : t.coord.events = s.coord.events)
    (senders : t.recorded = s.recorded ∧ t.registered = s.registered) : Journey t := by
  obtain ⟨fifo, distinct, inside⟩ := inv
  refine ⟨?_, ?_, ?_⟩ <;>
    simp only [log, filterMap_snoc, queued, taken, prepared, toList_none, append_nil,
      events, senders.1, senders.2]
  exacts [fifo, distinct, inside]

theorem Journey.move (inv : Journey s) (move : Move cfg s t) : Journey t := by
  cases move with
  | quiet same =>
    refine ⟨by rw [same.log, same.events, inv.fifo], by rw [same.log]; exact inv.distinct, ?_⟩
    rw [same.log, ← append_assoc]
    refine (same.senders.append (Subperm.refl _)).trans ?_
    rw [append_assoc]
    exact inv.inside
  | injected | snapshotted | called => exact inv.silent rfl rfl rfl rfl rfl ⟨rfl, rfl⟩
  | prepared id sinkErr ordered =>
    have fresh : id ∉ s.log.filterMap preparedID := ordered
    refine ⟨?_, ?_, ?_⟩ <;>
      simp only [log_record, filterMap_snoc, queuedID, takenID,
        preparedID, toList_none, toList_some, append_nil]
    · exact inv.fifo
    · exact nodup_append_comm.1 (nodup_cons.2 ⟨fresh, inv.distinct⟩)
    · change ((s.recorded ++ [id]) ++ (s.registered ++ _)).Subperm _
      rw [append_assoc]
      exact (perm_middle.subperm.trans ((subperm_cons id).2 inv.inside)).trans
        (perm_append_singleton id _).symm.subperm
  | queued id registered sent sender =>
    refine ⟨?_, ?_, ?_⟩ <;>
      simp only [log_record, filterMap_snoc, queuedID, takenID,
        preparedID, toList_none, toList_some, append_nil]
    · rw [inv.fifo, append_assoc]
      rfl
    · exact inv.distinct
    · refine Subperm.trans (Perm.subperm ?_) inv.inside
      refine Perm.append_left _ ?_
      rw [← append_assoc]
      exact (perm_append_singleton _ _).trans (sender.symm.append_right _)
  | taken id rest pending worker events idle table goes =>
    refine ⟨?_, ?_, ?_⟩ <;>
      simp only [log_record, filterMap_snoc, queuedID, takenID,
        preparedID, toList_none, toList_some, append_nil]
    · rw [inv.fifo, events, append_assoc]
      rfl
    · exact inv.distinct
    · exact inv.inside
  | returned call ok extra there completes =>
    have ended : Journey { s with log := s.log ++ [.returned call ok] } :=
      inv.silent rfl rfl rfl rfl rfl ⟨rfl, rfl⟩
    rcases completes with rfl | ⟨id, -, -, rfl⟩
    · rw [append_nil]
      exact { ended with }
    · exact ended.silent rfl rfl rfl rfl rfl ⟨rfl, rfl⟩
  | passed worker fatal ends => exact { inv with }

/-! ## What is committed or aborted -/

/-- At most one of `CommitSink` and `AbortSink` is called for a checkpoint, and once. -/
structure Decided (s : Coordination π ν) : Prop where
  distinct : (s.log.filterMap endedID).Nodup
  among : ∀ id ∈ s.log.filterMap endedID,
    id ∈ s.log.filterMap takenID
  current : ∀ id, s.coord.worker.undecided = some id → id ∈ s.log.filterMap takenID
  untouched : ∀ id, s.coord.worker.undecided = some id →
    (s.calling = true → ∃ p, s.coord.worker = .persist id p) →
    id ∉ s.log.filterMap endedID

theorem Decided.silent (inv : Decided s) (ended : event.endedID = none)
    (taken : event.takenID = none) (log : t.log = s.log ++ [event])
    (current : ∀ id, t.coord.worker.undecided = some id → s.coord.worker.undecided = some id)
    (calling : ∀ id, t.coord.worker.undecided = some id →
      (t.calling = true → ∃ p, t.coord.worker = .persist id p) →
      s.calling = true → ∃ p, s.coord.worker = .persist id p) : Decided t := by
  refine ⟨?_, ?_, ?_, ?_⟩ <;>
    simp only [log, filterMap_snoc, ended, taken, toList_none, append_nil]
  · exact inv.distinct
  · exact inv.among
  · exact fun id working => inv.current id (current id working)
  · exact fun id working busy => inv.untouched id (current id working) (calling id working busy)

variable {call : ExternalCall π ν}

theorem Decided.called (inv : Decided s) (free : s.calling = false)
    (there : s.coord.worker.call cfg = some call) :
    Decided ({ s with calling := true }.record (.called call)) := by
  have decides : ∀ id, s.coord.worker.undecided = some id →
      (CoordinatorEvent.called call).endedID = some id → (∀ p, s.coord.worker ≠ .persist id p) →
      Decided ({ s with calling := true }.record (.called call)) := by
    intro id working ends notPersist
    have fresh := inv.untouched id working fun busy => by simp [free] at busy
    have here := inv.current id working
    refine ⟨?_, ?_, ?_, ?_⟩ <;>
      simp only [log_record, filterMap_snoc, ends, takenID, toList_none,
        toList_some, append_nil]
    · exact nodup_append_comm.1 (nodup_cons.2 ⟨fresh, inv.distinct⟩)
    · intro other mem
      rcases mem_append.1 mem with before | now
      · exact inv.among other before
      · rw [mem_singleton.1 now]
        exact here
    · exact inv.current
    · intro other same busy
      obtain ⟨p, persists⟩ := busy rfl
      have same : s.coord.worker.undecided = some other := same
      rw [working] at same
      obtain rfl := some.inj same
      exact absurd persists (notPersist p)
  cases working : s.coord.worker with
  | idle | report => simp [working, FinalizeLoop.call] at there
  | commit id p =>
    obtain rfl : ExternalCall.commitSink id = call := by
      simpa [working, FinalizeLoop.call] using there
    exact decides id (by rw [working]; rfl) rfl (by simp [working])
  | abort id =>
    rw [working, FinalizeLoop.call] at there
    obtain ⟨-, rfl⟩ := of_ite_some there
    exact decides id (by rw [working]; rfl) rfl (by simp [working])
  | persist id p =>
    obtain rfl : ExternalCall.save (preparedData id p) = call := by
      simpa [working, FinalizeLoop.call] using there
    exact inv.silent rfl rfl rfl (fun _ same => same) fun _ _ _ busy => by simp [free] at busy
  | complete id p =>
    obtain rfl : ExternalCall.updateStatus id = call := by
      simpa [working, FinalizeLoop.call] using there
    exact inv.silent rfl rfl rfl (fun _ same => same) fun _ _ _ busy => by simp [free] at busy
  | offsets id p =>
    rw [working, FinalizeLoop.call] at there
    obtain ⟨-, same⟩ := ite_none_right_eq_some.1 there
    obtain ⟨offsets, -, rfl⟩ := map_eq_some_iff.1 same
    exact inv.silent rfl rfl rfl (fun _ same => same) fun _ _ _ busy => by simp [free] at busy

theorem Decided.move (inv : Decided s) (journey : Journey s) (move : Move cfg s t) : Decided t := by
  cases move with
  | quiet same =>
    refine ⟨?_, ?_, ?_, ?_⟩ <;> simp only [same.log, same.worker, same.calling]
    exacts [inv.distinct, inv.among, inv.current, inv.untouched]
  | injected | snapshotted | prepared | queued =>
    exact inv.silent rfl rfl rfl (fun _ same => same) fun _ _ busy => busy
  | taken id rest pending worker events idle table goes =>
    have fresh := journey.fresh events
    have undecided : ∀ other, worker.undecided = some other → other = id := by
      intro other working
      rcases goes with rfl | rfl | ⟨p, -, rfl⟩
      · cases working
      · exact (some.inj working).symm
      · exact (some.inj working).symm
    refine ⟨?_, ?_, ?_, ?_⟩ <;>
      simp only [log_record, filterMap_snoc, endedID, takenID,
        toList_none, toList_some, append_nil]
    · exact inv.distinct
    · exact fun other mem => mem_append_left _ (inv.among other mem)
    · intro other working
      rw [undecided other working]
      exact mem_append_right _ (mem_singleton_self id)
    · intro other working _ mem
      rw [undecided other working] at mem
      exact fresh (inv.among id mem)
  | called call free there => exact inv.called free there
  | returned call ok extra there completes =>
    have ended : Decided { s with
        calling := false
        coord := { s.coord with worker := s.coord.worker.next ok }
        log := s.log ++ [.returned call ok] } := by
      -- only a checkpoint that was being stored is still undecided
      have goes : ∀ id, (s.coord.worker.next ok).undecided = some id →
          ∃ p, s.coord.worker = .persist id p := by
        intro id working
        cases worker : s.coord.worker <;> cases ok <;>
          simp_all [FinalizeLoop.next, FinalizeLoop.undecided]
      refine inv.silent rfl rfl rfl (fun id working => ?_) fun id working _ _ => goes id working
      obtain ⟨p, persists⟩ := goes id working
      rw [persists]
      rfl
    rcases completes with rfl | ⟨id, -, -, rfl⟩
    · rw [append_nil]
      exact ended
    · exact ended.silent rfl rfl rfl (fun _ same => same) fun _ _ busy => busy
  | passed worker fatal ends =>
    have free : ∀ id, worker.undecided ≠ some id := by
      intro id working
      rcases ends with rfl | rfl <;> cases working
    exact ⟨inv.distinct, inv.among, fun id working => absurd working (free id),
      fun id working => absurd working (free id)⟩

/-! ## What is stored -/

structure Registered (s : Coordination π ν) : Prop where
  pending : ∀ id, id ∉ s.log.filterMap takenID →
    (s.coord.ensure id).offsets = offsetsOf s.log id ∧
      (s.coord.ensure id).state = stateOf s.log id
  working : ∀ id p, s.coord.worker.holds = some (id, p) →
    id ∈ s.log.filterMap preparedID ∧
      p.offsets = offsetsOf s.log id ∧ p.state = stateOf s.log id

theorem untaken_of_snoc {log : List (CoordinatorEvent π ν)} {id : CheckpointID}
    (untaken : id ∉ (log ++ [event]).filterMap takenID) : id ∉ log.filterMap takenID := by
  rw [filterMap_snoc] at untaken
  exact fun mem => untaken (mem_append_left _ mem)

theorem Registered.silent (inv : Registered s)
    (injected : event.injectedID = none) (snapshotted : event.snapshottedID = none)
    (log : t.log = s.log ++ [event]) (pending : ∀ id, id ∉ t.log.filterMap takenID →
      (t.coord.ensure id).offsets = (s.coord.ensure id).offsets ∧
        (t.coord.ensure id).state = (s.coord.ensure id).state)
    (working : ∀ id p, t.coord.worker.holds = some (id, p) →
      s.coord.worker.holds = some (id, p)) : Registered t := by
  have offsets : ∀ id, offsetsOf t.log id = offsetsOf s.log id := by
    intro id
    rw [log]
    exact offsetsOf_snoc (by simp [injected])
  have state : ∀ id, stateOf t.log id = stateOf s.log id := by
    intro id
    rw [log]
    exact stateOf_snoc (by simp [snapshotted])
  refine ⟨fun id untaken => ?_, fun id p holds => ?_⟩
  · rw [offsets, state, (pending id untaken).1, (pending id untaken).2]
    rw [log] at untaken
    exact inv.pending id (untaken_of_snoc untaken)
  · obtain ⟨prepared, same⟩ := inv.working id p (working id p holds)
    rw [offsets, state, log, filterMap_snoc]
    exact ⟨mem_append_left _ prepared, same⟩

theorem Registered.move (inv : Registered s) (journey : Journey s)
    (move : Move cfg s t) : Registered t := by
  cases move with
  | quiet same =>
    have table : ∀ id, t.coord.ensure id = s.coord.ensure id := fun id => by
      rw [ensure, ensure, same.pending]
    refine ⟨?_, ?_⟩ <;> simp only [same.log, same.worker, table]
    exacts [inv.pending, inv.working]
  | injected id offsets ordered =>
    obtain ⟨fresh, -, unprepared⟩ := ordered
    refine ⟨fun other untaken => ?_, fun other p holds => ?_⟩
    · have before := untaken_of_snoc untaken
      obtain ⟨same, state⟩ := inv.pending other before
      rw [log_record, stateOf_snoc (by simp [snapshottedID])]
      simp only [record, Coordinator.onBarrierInjected, Coordinator.ensure_insert]
      by_cases this : other = id
      · subst this
        rw [if_pos rfl, (CoordinatorEvent.offsetsOf_injected fresh offsets).1]
        exact ⟨rfl, state⟩
      · rw [if_neg this, offsetsOf_snoc (by simpa [injectedID] using Ne.symm this)]
        exact ⟨same, state⟩
    · obtain ⟨prepared, same, state⟩ := inv.working other p holds
      have differs : other ≠ id := fun same => unprepared (same ▸ prepared)
      rw [log_record, stateOf_snoc (by simp [snapshottedID]),
        offsetsOf_snoc (by simpa [injectedID] using differs.symm), filterMap_snoc]
      exact ⟨mem_append_left _ prepared, same, state⟩
  | snapshotted id state ordered =>
    obtain ⟨fresh, unprepared⟩ := ordered
    refine ⟨fun other untaken => ?_, fun other p holds => ?_⟩
    · have before := untaken_of_snoc untaken
      obtain ⟨offsets, same⟩ := inv.pending other before
      rw [log_record, offsetsOf_snoc (by simp [injectedID])]
      simp only [record, Coordinator.onStateSnapshot, Coordinator.ensure_insert]
      by_cases this : other = id
      · subst this
        rw [if_pos rfl, CoordinatorEvent.stateOf_snapshotted fresh state]
        exact ⟨offsets, rfl⟩
      · rw [if_neg this, stateOf_snoc (by simpa [snapshottedID] using Ne.symm this)]
        exact ⟨offsets, same⟩
    · obtain ⟨prepared, offsets, same⟩ := inv.working other p holds
      have differs : other ≠ id := fun same => unprepared (same ▸ prepared)
      rw [log_record, offsetsOf_snoc (by simp [injectedID]),
        stateOf_snoc (by simpa [snapshottedID] using differs.symm), filterMap_snoc]
      exact ⟨mem_append_left _ prepared, offsets, same⟩
  | prepared id sinkErr ordered =>
    refine inv.silent rfl rfl rfl (fun other _ => ?_) fun _ _ holds => holds
    simp only [record, Coordinator.onSinkPrepared, Coordinator.ensure_insert]
    by_cases this : other = id
    · subst this
      rw [if_pos rfl]
      exact ⟨rfl, rfl⟩
    · rw [if_neg this]
      exact ⟨rfl, rfl⟩
  | queued id registered sent sender | called call free there =>
    exact inv.silent rfl rfl rfl (fun _ _ => ⟨rfl, rfl⟩) fun _ _ holds => holds
  | taken id rest pending worker events idle table goes =>
    have untaken := journey.fresh events
    have prepared : id ∈ s.log.filterMap preparedID :=
      journey.prepared (by rw [events]; exact mem_cons_self)
    have kept : Registered ({ s with
        coord := { s.coord with events := rest, pending, worker := .idle } }.record
          (.taken id)) := by
      refine inv.silent rfl rfl rfl (fun other outside => ?_) fun _ _ holds => by cases holds
      have differs : other ≠ id := by
        rintro rfl
        exact outside (mem_filterMap.2 ⟨.taken other, by simp, rfl⟩)
      rcases table with rfl | rfl
      · exact ⟨rfl, rfl⟩
      · constructor <;> simp [ensure, record, AList.lookup_erase_ne differs]
    refine ⟨kept.pending, fun other p holds => ?_⟩
    rcases goes with rfl | rfl | ⟨q, found, rfl⟩
    · cases holds
    · cases holds
    · obtain ⟨rfl, rfl⟩ := Prod.mk.inj (some.inj holds)
      have entry : s.coord.ensure id = q := by simp [ensure, found]
      obtain ⟨offsets, state⟩ := inv.pending id untaken
      rw [log_record, offsetsOf_snoc (by simp [injectedID]),
        stateOf_snoc (by simp [snapshottedID]), filterMap_snoc]
      exact ⟨mem_append_left _ prepared, entry ▸ offsets, entry ▸ state⟩
  | returned call ok extra there completes =>
    have ended : Registered { s with
        calling := false
        coord := { s.coord with worker := s.coord.worker.next ok }
        log := s.log ++ [.returned call ok] } := by
      refine inv.silent rfl rfl rfl (fun _ _ => ⟨rfl, rfl⟩) fun id p holds => ?_
      cases worker : s.coord.worker <;>
        cases ok <;> simp_all [FinalizeLoop.next, FinalizeLoop.holds]
    rcases completes with rfl | ⟨id, -, -, rfl⟩
    · rw [append_nil]
      exact ended
    · exact ended.silent rfl rfl rfl (fun _ _ => ⟨rfl, rfl⟩) fun _ _ holds => holds
  | passed worker fatal ends =>
    refine ⟨inv.pending, fun id p holds => ?_⟩
    rcases ends with rfl | rfl <;> cases holds

/-! ## What stands in front of each call -/

def Reason (front : List (CoordinatorEvent π ν)) : CoordinatorEvent π ν → Prop
  | .called (.commitSink id) =>
    .returned (.save
      { id
        source := offsetsOf front id
        operators := stateOf front id
        status := .prepared }) true ∈ front
  | .called (.updateStatus id) => .returned (.commitSink id) true ∈ front
  | .completed id | .called (.commitOffsets id _) =>
    .returned (.commitSink id) true ∈ front ∧ .returned (.updateStatus id) true ∈ front
  | _ => True

structure Grounded (s : Coordination π ν) : Prop where
  achieved : ∀ event ∈ s.coord.worker.achieved, event ∈ s.log
  reasons : Justified Reason s.log

theorem Grounded.snoc (inv : Grounded s) (log : t.log = s.log ++ [event])
    (worker : ∀ event ∈ t.coord.worker.achieved, event ∈ s.coord.worker.achieved)
    (reason : Reason s.log event) : Grounded t := by
  refine ⟨fun other mem => ?_, ?_⟩
  · rw [log]
    exact mem_append_left _ (inv.achieved other (worker other mem))
  · rw [log]
    exact inv.reasons.snoc reason

theorem Grounded.called (inv : Grounded s) (registered : Registered s)
    (there : s.coord.worker.call cfg = some call) : Reason s.log (.called call) := by
  have achieved := inv.achieved
  cases working : s.coord.worker with
  | idle | report => simp [working, FinalizeLoop.call] at there
  | persist id p =>
    obtain rfl : ExternalCall.save (preparedData id p) = call := by
      simpa [working, FinalizeLoop.call] using there
    trivial
  | commit id p =>
    obtain rfl : ExternalCall.commitSink id = call := by
      simpa [working, FinalizeLoop.call] using there
    obtain ⟨-, offsets, state⟩ := registered.working id p (by rw [working]; rfl)
    have stored := achieved (.returned (.save (preparedData id p)) true)
      (by simp [working, FinalizeLoop.achieved])
    rwa [preparedData, offsets, state] at stored
  | complete id p =>
    obtain rfl : ExternalCall.updateStatus id = call := by
      simpa [working, FinalizeLoop.call] using there
    exact achieved (.returned (.commitSink id) true) (by simp [working, FinalizeLoop.achieved])
  | offsets id p =>
    rw [working, FinalizeLoop.call] at there
    obtain ⟨-, same⟩ := ite_none_right_eq_some.1 there
    obtain ⟨offsets, -, rfl⟩ := map_eq_some_iff.1 same
    exact ⟨achieved (.returned (.commitSink id) true) (by simp [working, FinalizeLoop.achieved]),
      achieved (.returned (.updateStatus id) true) (by simp [working, FinalizeLoop.achieved])⟩
  | abort id =>
    rw [working, FinalizeLoop.call] at there
    obtain ⟨-, rfl⟩ := of_ite_some there
    trivial

theorem achieved_next {worker : FinalizeLoop π ν} {ok : Bool} (there : worker.call cfg = some call)
    (gained : event ∈ (worker.next ok).achieved) : event ∈ worker.achieved ∨
    event = .returned call ok := by
  cases worker <;> cases ok <;>
    simp_all [FinalizeLoop.next, FinalizeLoop.achieved, FinalizeLoop.call]

theorem Grounded.move (inv : Grounded s) (registered : Registered s)
    (move : Move cfg s t) : Grounded t := by
  cases move with
  | quiet same =>
    refine ⟨?_, ?_⟩ <;> simp only [same.log, same.worker]
    exacts [inv.achieved, inv.reasons]
  | injected id offsets ordered | snapshotted id state ordered | prepared id sinkErr ordered
  | queued id _ sent sender => exact inv.snoc rfl (fun _ mem => mem) trivial
  | taken id rest pending worker events idle table goes =>
    refine inv.snoc rfl (fun event mem => ?_) trivial
    rcases goes with rfl | rfl | ⟨p, -, rfl⟩ <;> cases mem
  | called call free there => exact inv.snoc rfl (fun _ mem => mem) (inv.called registered there)
  | returned call ok extra there completes =>
    have ended : Grounded { s with
        calling := false
        coord := { s.coord with worker := s.coord.worker.next ok }
        log := s.log ++ [.returned call ok] } := by
      refine ⟨fun event gained => ?_, inv.reasons.snoc trivial⟩
      rcases achieved_next there gained with before | rfl
      · exact mem_append_left _ (inv.achieved event before)
      · exact mem_append_right _ (mem_singleton_self _)
    rcases completes with rfl | ⟨id, rfl, rfl, rfl⟩
    · rw [append_nil]
      exact ended
    · refine ended.snoc rfl (fun _ mem => mem) ?_
      cases working : s.coord.worker with
      | complete other p =>
        obtain rfl : other = id := by simpa [working, FinalizeLoop.call] using there
        have gained := ended.achieved
        simp only [working, FinalizeLoop.next, if_true] at gained
        exact ⟨gained _ (by simp [FinalizeLoop.achieved]),
          gained _ (by simp [FinalizeLoop.achieved])⟩
      | idle | report | persist _ _ | commit _ _ | offsets _ _ | abort _ =>
        simp [working, FinalizeLoop.call] at there
  | passed worker fatal ends =>
    refine ⟨fun event mem => ?_, inv.reasons⟩
    rcases ends with rfl | rfl <;> cases mem

/-! ## Safety -/

structure Inv (s : Coordination π ν) : Prop where
  draining : Draining s
  journey : Journey s
  decided : Decided s
  registered : Registered s
  grounded : Grounded s

theorem inv_of_reach (reach : Reach (step cfg) InOrder {} s) : Inv s := by
  refine reach.invariant ?_ fun s action t inv ordered moves => ?_
  · exact
      { draining := ⟨rfl, by simp, by simp, by simp, rfl⟩
        journey := ⟨rfl, nodup_nil, .refl _⟩
        decided := ⟨nodup_nil, by simp, nofun, nofun⟩
        registered := ⟨fun id _ => ⟨rfl, rfl⟩, nofun⟩
        grounded := ⟨nofun, History.justified_nil⟩ }
  · have move := move_of_step ordered moves
    exact
      { draining := inv.draining.step moves
        journey := inv.journey.move move
        decided := inv.decided.move inv.journey move
        registered := inv.registered.move inv.journey move
        grounded := inv.grounded.move inv.registered move }

/-- What every run of the coordinator keeps. -/
structure Safe (s : Coordination π ν) : Prop where
  intact : s.panicked = false
  commitsOnce : ∀ front id back, s.log = front ++ .called (.commitSink id) :: back →
    .called (.commitSink id) ∉ front ∧ .called (.commitSink id) ∉ back
  commitsStored : ∀ front id back, s.log = front ++ .called (.commitSink id) :: back →
    .returned (.save
      { id
        source := offsetsOf front id
        operators := stateOf front id
        status := .prepared }) true ∈ front
  exclusive : ∀ id, .called (.commitSink id) ∈ s.log → .called (.abortSink id) ∉ s.log
  completesCommitted : ∀ front id back,
    s.log = front ++ .called (.updateStatus id) :: back ∨ s.log = front ++ .completed id :: back →
    .returned (.commitSink id) true ∈ front
  offsetsCompleted : ∀ front id offsets back,
    s.log = front ++ .called (.commitOffsets id offsets) :: back →
    .returned (.commitSink id) true ∈ front ∧ .returned (.updateStatus id) true ∈ front
  fifo : s.log.filterMap takenID <+: s.log.filterMap queuedID

theorem Decided.unique (inv : Decided s) {front back : List (CoordinatorEvent π ν)}
    {other : CoordinatorEvent π ν} (split : s.log = front ++ event :: back) (decides :
    event.endedID = some id) (too : other.endedID = some id) : other ∉ front ∧ other ∉ back := by
  have distinct := inv.distinct
  rw [split, filterMap_append, filterMap_cons_some decides] at distinct
  obtain ⟨-, later, apart⟩ := nodup_append.1 distinct
  refine ⟨fun mem => ?_, fun mem => ?_⟩
  · exact apart id (mem_filterMap.2 ⟨other, mem, too⟩) id mem_cons_self rfl
  · exact (nodup_cons.1 later).1 (mem_filterMap.2 ⟨other, mem, too⟩)

/-- For every number of checkpoints and callers, every interleaving and every outcome of the
calls that leave the coordinator: the protocol is safe. -/
theorem coordinator_safe (cfg : CoordinatorConfig) (s : Coordination π ν)
    (reach : Reach (step cfg) InOrder {} s) : Safe s := by
  obtain ⟨draining, journey, decided, -, grounded⟩ := inv_of_reach reach
  refine ⟨draining.intact, ?_, ?_, ?_, ?_, ?_, ?_⟩
  · exact fun front id back split => decided.unique split rfl rfl
  · exact fun front id back split => grounded.reasons front _ back split
  · intro id commits aborts
    obtain ⟨front, back, split⟩ := append_of_mem commits
    obtain ⟨before, behind⟩ := decided.unique split rfl (show
      (CoordinatorEvent.called (.abortSink id) : CoordinatorEvent π ν).endedID = some id from rfl)
    rw [split] at aborts
    rcases mem_append.1 aborts with early | late
    · exact before early
    · rcases mem_cons.1 late with same | late
      · cases same
      · exact behind late
  · rintro front id back (split | split)
    · exact grounded.reasons front _ back split
    · exact (grounded.reasons front _ back split).1
  · exact fun front id offsets back split => grounded.reasons front _ back split
  · exact ⟨_, journey.fifo.symm⟩

/-- A checkpoint goes through the whole protocol while `Stop` is called. -/
theorem coordinator_safe_completed : ∃ s : Coordination Nat Nat, Reach (step {}) InOrder {} s ∧
    Safe s ∧ .completed ⟨0, 1, .periodic⟩ ∈ s.log ∧ s.closed = true := by
  let id : CheckpointID := ⟨0, 1, .periodic⟩
  obtain ⟨s, reach, held⟩ := Reach.exists_of_guarded (step {}) InOrder ({} : Coordination Nat Nat)
    [.injected id (some 5), .snapshotted id 7, .prepared id false, .register id, .stop, .send id,
      .dequeue, .halt, .call, .ret true, .call, .ret true, .call, .leave id, .wait, .ret true,
        .call,
      .close, .ret true, .exit, .stopped]
    (fun s => decide (.completed ⟨0, 1, .periodic⟩ ∈ s.log ∧ s.closed = true)) (by decide)
  exact ⟨s, reach, coordinator_safe {} s reach, of_decide_eq_true held⟩

end Coordination

end Weibo.Checkpoint
