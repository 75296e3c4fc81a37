import Weibo.Engine.CommitProtocol
import Weibo.Lib.Transducer

/-!
# Recovery in coordinated mode

`resolveCoordinatedRecovery` resumes from the checkpoint written last if it is completed; if it is
only prepared, its marker tells whether its transaction was committed. After a run whose calls all
succeed a crash at any point is resolved correctly.
-/

namespace Weibo.Engine

open Checkpoint Sink List
open Marked (marks)

variable {π ν : Type}

/-- `resolveCoordinatedRecovery`: the checkpoint to resume from and the storage it leaves;
`none` when it refuses to start. -/
def resolveCoordinatedRecovery (store : Storage π ν) (topic : Topic) :
    Option (Option (CheckpointData π ν) × Storage π ν) :=
  match store.load with
  | none => some (none, store)
  | some latest =>
    if latest.completed then some (some latest, store)
    else if latest.id ∈ topic.markers then
      (store.updateStatus latest.id .completed).map fun promoted =>
        (some { latest with status := .completed }, promoted)
    else some (store.loadLatestCompleted, store)

def lastCommitted (store : Storage π ν) (topic : Topic) : Option (CheckpointData π ν) :=
  topic.markers.getLast?.bind fun id => store.find? fun data => data.id = id

def Dangling (store : Storage π ν) (topic : Topic) (last : Option (CheckpointData π ν))
    (data : CheckpointData π ν) : Prop :=
  store.load = some data ∧ data.completed = false ∧ data.id ∉ topic.markers ∧
    store.loadLatestCompleted = last

def Published (store : Storage π ν) (topic : Topic) (last : Option (CheckpointData π ν))
    (data : CheckpointData π ν) : Prop :=
  store.load = some data ∧ data.completed = false ∧ data.id ∈ topic.markers ∧
    last = some { data with status := .completed }

def Settled (store : Storage π ν) (topic : Topic) (last : Option (CheckpointData π ν)) : Prop :=
  store.load = last ∨ ∃ data, Dangling store topic last data

/-- Storage and topic agree that `last` is the checkpoint committed last. -/
structure Agrees (store : Storage π ν) (topic : Topic) (last : Option (CheckpointData π ν)) :
    Prop where
  distinct : (store.map CheckpointData.id).Nodup
  marker : topic.markers.getLast? = last.map CheckpointData.id
  completed : ∀ data ∈ last, data.completed = true
  phase : Settled store topic last ∨ ∃ data, Published store topic last data

theorem settled_empty : Settled ([] : Storage π ν) {} none := .inl rfl

theorem agrees_empty : Agrees ([] : Storage π ν) {} none :=
  ⟨nodup_nil, rfl, by simp, .inl settled_empty⟩

namespace Agrees

variable {store : Storage π ν} {topic : Topic} {last : Option (CheckpointData π ν)}
  {data : CheckpointData π ν}

theorem loadLatestCompleted (agrees : Agrees store topic last)
    (settled : Settled store topic last) : store.loadLatestCompleted = last := by
  rcases settled with loaded | ⟨_, dangling⟩
  · cases last with
    | none =>
      have empty : store = [] := List.getLast?_eq_none_iff.1 loaded
      rw [empty]
      rfl
    | some data => exact Storage.loadLatestCompleted_of_load loaded (agrees.completed data rfl)
  · exact dangling.2.2.2

theorem persist (agrees : Agrees store topic last) (settled : Settled store topic last)
    (data : CheckpointData π ν) (waits : data.completed = false)
    (fresh : ∀ old ∈ store, old.id ≠ data.id) (uncommitted : data.id ∉ topic.markers) : Agrees
    (store.save data) topic last ∧ Dangling (store.save data) topic last data := by
  have dangling : Dangling (store.save data) topic last data :=
    ⟨Storage.load_save store data, waits, uncommitted,
      (Storage.loadLatestCompleted_save_prepared store waits fresh).trans
        (agrees.loadLatestCompleted settled)⟩
  exact ⟨⟨Storage.nodup_save agrees.distinct data, agrees.marker, agrees.completed,
    .inl (.inr ⟨data, dangling⟩)⟩, dangling⟩

theorem publish (agrees : Agrees store topic last) (dangling : Dangling store topic last data)
    (visible : List TxnMessage) :
    Agrees store ⟨visible, topic.markers ++ [data.id]⟩ (some { data with status := .completed }) ∧
      Published store ⟨visible, topic.markers ++ [data.id]⟩
        (some { data with status := .completed }) data := by
  have published : Published store ⟨visible, topic.markers ++ [data.id]⟩
      (some { data with status := .completed }) data :=
    ⟨dangling.1, dangling.2.1, mem_append_right _ (mem_singleton_self _), rfl⟩
  refine ⟨⟨agrees.distinct, by simp, ?_, .inr ⟨data, published⟩⟩, published⟩
  intro other same
  rw [← Option.some.inj same]
  rfl

theorem complete (agrees : Agrees store topic last) (published : Published store topic last data) :
    store.updateStatus data.id .completed = some (store.save { data with status := .completed }) ∧
      Agrees (store.save { data with status := .completed }) topic last ∧
      Settled (store.save { data with status := .completed }) topic last := by
  have stored : data ∈ store := Storage.mem_of_load published.1
  have settled : Settled (store.save { data with status := .completed }) topic last :=
    .inl ((Storage.load_save _ _).trans published.2.2.2.symm)
  exact ⟨Storage.updateStatus_of_mem agrees.distinct stored .completed,
    ⟨Storage.nodup_save agrees.distinct _, agrees.marker, agrees.completed, .inl settled⟩, settled⟩

theorem resolve (agrees : Agrees store topic last) :
    ∃ resolved, resolveCoordinatedRecovery store topic = some (last, resolved) ∧
      Agrees resolved topic last ∧ Settled resolved topic last ∧
      ∀ data ∈ resolved, ∃ old ∈ store, old.id = data.id := by
  rcases agrees.phase with settled | ⟨data, published⟩
  · refine ⟨store, ?_, agrees, settled, fun data stored => ⟨data, stored, rfl⟩⟩
    rcases settled with loaded | ⟨data, loaded, waits, uncommitted, completed⟩
    · cases last with
      | none => simp [resolveCoordinatedRecovery, loaded]
      | some data => simp [resolveCoordinatedRecovery, loaded, agrees.completed data rfl]
    · simp [resolveCoordinatedRecovery, loaded, waits, uncommitted, completed]
  · obtain ⟨updated, agrees', settled⟩ := agrees.complete published
    refine ⟨_, ?_, agrees', settled, ?_⟩
    · obtain ⟨loaded, waits, committed, same⟩ := published
      simp [resolveCoordinatedRecovery, loaded, waits, committed, updated, same]
    · intro other stored
      rcases Storage.mem_save.1 stored with ⟨old, -⟩ | rfl
      · exact ⟨other, old, rfl⟩
      · exact ⟨data, Storage.mem_of_load published.1, rfl⟩

theorem lastCommitted_source (agrees : Agrees store topic last) :
    (lastCommitted store topic).map CheckpointData.source = last.map CheckpointData.source := by
  cases last with
  | none =>
    have unmarked : topic.markers.getLast? = none := agrees.marker
    simp [lastCommitted, unmarked]
  | some data =>
    have marked : topic.markers.getLast? = some data.id := agrees.marker
    obtain ⟨stored, inside, same, source⟩ : ∃ stored ∈ store, stored.id = data.id ∧
        stored.source = data.source := by
      rcases agrees.phase with settled | ⟨stored, loaded, -, -, same⟩
      · have loaded := agrees.loadLatestCompleted settled
        exact ⟨data, (mem_filter.1 (mem_of_getLast? loaded)).1, rfl, rfl⟩
      · cases same
        exact ⟨stored, Storage.mem_of_load loaded, rfl, rfl⟩
    have found := Storage.find?_of_mem agrees.distinct inside
    rw [same] at found
    simp [lastCommitted, marked, found, source]

end Agrees

end Weibo.Engine
