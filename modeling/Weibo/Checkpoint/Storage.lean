import Weibo.Types.Record

/-!
# Checkpoint storage

The storage interface of the checkpoint coordinator, with `Save` and `UpdateStatus` atomic.
The checkpoints are kept in the order in which they were last written. Retention is left out;
`FileStorage` has it.
-/

namespace Weibo.Checkpoint

open List Option

inductive Status where
  | prepared
  | completed
  deriving DecidableEq

structure CheckpointData (π ν : Type) where
  id : CheckpointID
  source : Option π
  operators : Option ν
  status : Status
  deriving DecidableEq

def CheckpointData.completed {π ν : Type} (data : CheckpointData π ν) : Bool :=
  data.status = .completed

abbrev Storage (π ν : Type) := List (CheckpointData π ν)

namespace Storage

variable {π ν : Type}

/-- `Save`: a checkpoint of the same id is replaced. -/
def save (store : Storage π ν) (data : CheckpointData π ν) : Storage π ν :=
  store.filter (fun old => old.id ≠ data.id) ++ [data]

/-- `Load`: the checkpoint written last, whatever its status. -/
def load (store : Storage π ν) : Option (CheckpointData π ν) := store.getLast?

/-- `LoadLatestCompleted`: the completed checkpoint written last. -/
def loadLatestCompleted (store : Storage π ν) : Option (CheckpointData π ν) :=
  (store.filter CheckpointData.completed).getLast?

/-- `UpdateStatus`; `none` when the checkpoint is not found. -/
def updateStatus (store : Storage π ν) (id : CheckpointID) (status : Status) :
    Option (Storage π ν) :=
  (store.find? fun old => old.id = id).map fun data => store.save { data with status }

@[simp]
theorem load_save (store : Storage π ν)
    (data : CheckpointData π ν) : (store.save data).load = some data := by
  simp [save, load]

variable {data : CheckpointData π ν}

theorem loadLatestCompleted_save_prepared (store : Storage π ν)
    (waits : data.completed = false) (fresh : ∀ old ∈ store, old.id ≠ data.id) :
    (store.save data).loadLatestCompleted = store.loadLatestCompleted := by
  have kept : store.filter (fun old => old.id ≠ data.id) = store :=
    filter_eq_self.2 fun old inside => by simpa using fresh old inside
  unfold save loadLatestCompleted
  rw [kept, filter_append, filter_singleton, waits, cond_false, append_nil]

variable {store : Storage π ν}

theorem mem_of_load (loaded : store.load = some data) : data ∈ store := mem_of_getLast? loaded

theorem loadLatestCompleted_of_load (loaded : store.load = some data)
    (done : data.completed = true) : store.loadLatestCompleted = some data := by
  obtain ⟨earlier, rfl⟩ := List.getLast?_eq_some_iff.1 loaded
  simp [loadLatestCompleted, filter_append, done]

theorem find?_of_mem (distinct : (store.map CheckpointData.id).Nodup) (stored : data ∈ store) :
    store.find? (fun old => old.id = data.id) = some data := by
  obtain ⟨before, after, rfl⟩ := append_of_mem stored
  have missed : before.find? (fun old => old.id = data.id) = none := by
    simp only [List.find?_eq_none, decide_eq_true_eq]
    intro old inside same
    rw [map_append, map_cons] at distinct
    have apart := (nodup_append.1 distinct).2.2 old.id (List.mem_map_of_mem inside) data.id
      (mem_cons_self ..)
    exact apart same
  rw [List.find?_append, missed]
  simp

theorem updateStatus_of_mem
    (distinct : (store.map CheckpointData.id).Nodup) (stored : data ∈ store) (status : Status) :
    store.updateStatus data.id status = some (store.save { data with status }) := by
  rw [updateStatus, find?_of_mem distinct stored, map_some]

theorem mem_save {old : CheckpointData π ν} :
    old ∈ store.save data ↔ (old ∈ store ∧ old.id ≠ data.id) ∨ old = data := by
  simp [save]

theorem mem_updateStatus {updated : Storage π ν} {id : CheckpointID} {status : Status}
    (done : store.updateStatus id status = some updated)
    (stored : data ∈ updated) : ∃ old ∈ store, old.id = data.id := by
  obtain ⟨found, here, rfl⟩ := map_eq_some_iff.1 done
  rcases mem_save.1 stored with ⟨old, -⟩ | rfl
  · exact ⟨data, old, rfl⟩
  · exact ⟨found, mem_of_find?_eq_some here, rfl⟩

theorem nodup_save (distinct : (store.map CheckpointData.id).Nodup)
    (data : CheckpointData π ν) : ((store.save data).map CheckpointData.id).Nodup := by
  have kept : ((store.filter fun old => old.id ≠ data.id).map CheckpointData.id).Nodup :=
    distinct.sublist (filter_sublist.map _)
  rw [save, map_append]
  refine nodup_append.2 ⟨kept, by simp, ?_⟩
  intro id inside other single
  obtain ⟨old, stored, rfl⟩ := List.mem_map.1 inside
  rw [mem_singleton.1 single]
  exact of_decide_eq_true (mem_filter.1 stored).2

end Storage

end Weibo.Checkpoint
