import Mathlib.Data.List.AList
import Weibo.Checkpoint.Storage

/-!
# The checkpoint coordinator

The coordinator collects the source positions, the operator state and the sink's answer of a
checkpoint, and finalizes one at a time on its own goroutine: store it as prepared, commit the sink
transaction, store it as completed.
-/

namespace Weibo.Checkpoint

/-- `pendingCheckpoint`: what is known about a checkpoint that is not finalized yet. -/
structure PendingCheckpoint (π ν : Type) where
  offsets : Option π := none
  state : Option ν := none
  prepared : Bool := false
  sinkErr : Bool := false

inductive FinalizeLoop (π ν : Type) where
  | idle
  | persist (id : CheckpointID) (pending : PendingCheckpoint π ν)
  | commit (id : CheckpointID) (pending : PendingCheckpoint π ν)
  | complete (id : CheckpointID) (pending : PendingCheckpoint π ν)
  | offsets (id : CheckpointID) (pending : PendingCheckpoint π ν)
  | abort (id : CheckpointID)
  | report

def FinalizeLoop.undecided {π ν : Type} : FinalizeLoop π ν → Option CheckpointID
  | .persist id _ | .commit id _ | .abort id => some id
  | .idle | .complete _ _ | .offsets _ _ | .report => none

def eventBuf : Nat := 16

structure Coordinator (π ν : Type) where
  pending : AList fun _ : CheckpointID => PendingCheckpoint π ν := ∅
  halted : Bool := false
  events : List CheckpointID := []
  fatal : Bool := false
  worker : FinalizeLoop π ν := .idle

namespace Coordinator

variable {π ν : Type}

/-- `ensure`: the entry of a checkpoint, an empty one if there is none. -/
def ensure (c : Coordinator π ν) (id : CheckpointID) : PendingCheckpoint π ν :=
  (c.pending.lookup id).getD {}

theorem ensure_insert (c : Coordinator π ν) (id other : CheckpointID) (p : PendingCheckpoint π ν) :
    ensure { c with pending := c.pending.insert id p } other =
      if other = id then p else c.ensure other := by
  by_cases same : other = id
  · subst same
    simp [ensure]
  · simp [ensure, same, AList.lookup_insert_ne same]

def onBarrierInjected (c : Coordinator π ν) (id : CheckpointID) (offsets : Option π) :
    Coordinator π ν :=
  { c with pending := c.pending.insert id { c.ensure id with offsets } }

def onStateSnapshot (c : Coordinator π ν) (id : CheckpointID) (state : ν) : Coordinator π ν :=
  { c with pending := c.pending.insert id { c.ensure id with state := some state } }

/-- The part of `OnSinkPrepared` that records the sink's answer. -/
def onSinkPrepared (c : Coordinator π ν) (id : CheckpointID) (sinkErr : Bool) :
    Coordinator π ν :=
  { c with pending := c.pending.insert id { c.ensure id with prepared := true, sinkErr } }

/-- The part of `OnSinkPrepared` that queues the checkpoint; `none` while the channel is full. -/
def enqueue (c : Coordinator π ν) (id : CheckpointID) : Option (Coordinator π ν) :=
  if c.halted then some c
  else if c.events.length < eventBuf then some { c with events := c.events ++ [id] }
  else none

/-- `finalize` takes the next checkpoint up; `none` while there is none. -/
def dequeue (c : Coordinator π ν) : Option (Coordinator π ν) :=
  match c.worker, c.events with
  | .idle, id :: rest =>
    let taken := { c with events := rest }
    if c.halted then some taken
    else
      let taken := { taken with pending := c.pending.erase id }
      match c.pending.lookup id with
      | none => some taken
      | some p => some { taken with worker := if p.sinkErr then .abort id else .persist id p }
  | _, _ => none

/-- The record that `finalize` stores first. -/
def preparedData (id : CheckpointID) (p : PendingCheckpoint π ν) : CheckpointData π ν :=
  { id, source := p.offsets, operators := p.state, status := .prepared }

end Coordinator

end Weibo.Checkpoint
