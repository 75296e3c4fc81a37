import Weibo.Checkpoint.FileStorage

/-!
# Savepoints

`RestoreSavepoint` writes the state files of an archive and saves its record as a completed
checkpoint with its own timestamp. The same call of `Save` enforces retention by timestamp, so the
savepoint is removed again where enough completed checkpoints are not before it.
-/

namespace Weibo.Checkpoint

open List Bool

open Durable (Throughout)

variable {π ν : Type}

def savepointPrefix : String := "savepoints/"

def savepointKey (label : String) : String := savepointPrefix ++ label

inductive ArchiveEntry (π ν : Type)
  | record (data : Option (CheckpointRecord π ν))
  /-- A state file: the path below the state directory that its name leads to, nothing when it
  escapes from there, and whether the file could be written. -/
  | state (path : Option StatePath) (written : Bool)
  | other
  | broken

inductive RestoreError
  | notFound
  | read
  | extractMeta
  | stateFileFirst
  | unsafePath
  | write
  | missingRecord
  | extractSave
  deriving DecidableEq

/-- The loop of `ExtractCheckpoint`: the files that are written, and the record behind the last
entry. -/
def extractEntries : List (ArchiveEntry π ν) → Option (CheckpointRecord π ν) →
    List (FileStep π ν) × Except RestoreError (Option (CheckpointRecord π ν))
  | [], data => ([], .ok data)
  | .broken :: _, _ => ([], .error .read)
  | .record none :: _, _ => ([], .error .extractMeta)
  | .record (some data) :: rest, _ => extractEntries rest (some data)
  | .state _ _ :: _, none => ([], .error .stateFileFirst)
  | .state none _ :: _, some _ => ([], .error .unsafePath)
  | .state (some _) false :: _, some _ => ([], .error .write)
  | .state (some path) true :: rest, some data =>
    let (steps, result) := extractEntries rest (some data)
    (.writeState data.id path :: steps, result)
  | .other :: rest, data => extractEntries rest data

namespace FileStorage

variable (fs : FileStorage π ν) (d : Disk π ν)

def extractCheckpoint (archive : List (ArchiveEntry π ν)) :
    List (FileStep π ν) × Except RestoreError CheckpointID :=
  match extractEntries archive none with
  | (steps, .error failure) => (steps, .error failure)
  | (steps, .ok none) => (steps, .error .missingRecord)
  | (steps, .ok (some data)) =>
    match fs.saveLocked (d.run steps) { data with status := .completed } with
    | none => (steps, .error .extractSave)
    | some program => (steps ++ program, .ok data.id)

def restoreSavepoint (blobs : String → Option (List (ArchiveEntry π ν))) (label : String) :
    List (FileStep π ν) × Except RestoreError CheckpointID :=
  match blobs (savepointKey label) with
  | none => ([], .error .notFound)
  | some archive => fs.extractCheckpoint d archive

/-- `ArchiveCheckpoint`: the record, then the files below the directory of each owner. -/
def archiveCheckpoint (id : CheckpointID) : Option (List (ArchiveEntry π ν)) :=
  (d.loadSpecific id).map fun data => .record (some data) :: data.stateDirs.flatMap fun owner =>
    (d.state.filter fun entry => entry.1 = id ∧ owner.2 <+: entry.2).map fun entry =>
      .state (some entry.2) true

/-- `CreateSavepoint` of a directory that is opened for it: nothing when no checkpoint has
completed, or when the archive is not put into the blobstore. -/
def createSavepoint (put : Bool) : List (FileStep π ν) × Option (List (ArchiveEntry π ν)) :=
  let opened := d.run (fs.maintain d)
  match fs.loadPointer opened .latestCompleted true with
  | (none, _) => (fs.maintain d, none)
  | (some data, repair) =>
    (fs.maintain d ++ repair, if put then archiveCheckpoint (opened.run repair) data.id else none)

end FileStorage

def savedRecord (archive : List (ArchiveEntry π ν)) : Option (CheckpointRecord π ν) :=
  match (extractEntries archive none).2 with
  | .ok (some data) => some { data with status := .completed }
  | _ => none

theorem extractEntries_keeps (holds : Disk π ν → Prop)
    (state : ∀ d id path, holds d → holds (d.apply (.writeState id path))) {d : Disk π ν}
    (initial : holds d) (archive : List (ArchiveEntry π ν)) (data : Option (CheckpointRecord π ν)) :
    holds (d.run (extractEntries archive data).1) := by
  fun_induction extractEntries archive data generalizing d with
  | case1 | case2 | case3 | case5 | case6 | case7 => exact initial
  | case4 rest data next ih => exact ih initial
  | case8 path rest data steps result same ih =>
    rw [same] at ih
    exact ih (state d data.id path initial)
  | case9 rest data ih => exact ih initial

namespace FileStorage

variable {fs : FileStorage π ν} {d : Disk π ν} {data : CheckpointRecord π ν}

structure Restored (fs : FileStorage π ν) (data : CheckpointRecord π ν) (d : Disk π ν) : Prop where
  stored : data ∈ d.records
  done : data.completed = true
  few : (d.rivals data).length < fs.retainCompleted
  names : ∀ name, d.pointer name = some data.id
  present : d.Present data

/-- What a storage of smaller retention would keep, a storage keeps. -/
theorem robust_restored {tight fs : FileStorage π ν}
    (le : tight.retainCompleted ≤ fs.retainCompleted) (data : CheckpointRecord π ν) :
    fs.Robust (tight.Restored data) where
  shrink := by
    intro gone d after restored shrinks victim
    have alive : ¬gone data := fun dead =>
      not_victim (fun _ => restored.few.trans_le le) (victim data dead)
    have stored := shrinks.kept data restored.stored alive
    refine ⟨stored, restored.done, ?_, fun name => ?_, shrinks.present stored restored.present⟩
    · exact lt_of_le_of_lt (shrinks.length_filter_le _) restored.few
    · rw [shrinks.pointer]
      exact restored.names name
  repair := by
    intro d name found restored loads
    cases loads with
    | scanned stored use dangles newest =>
      have unusable := dangles data restored.stored (restored.names name)
      simp [usable, restored.done] at unusable

theorem Restored.loaded (restored : fs.Restored data d) :
    fs.load d = some data ∧ fs.loadLatestCompleted d = some data := by
  have latest : fs.loadPointer d .latest false = (some data, []) :=
    loadPointer_of_names restored.stored rfl (restored.names .latest)
  have completed : fs.loadPointer d .latestCompleted true = (some data, []) :=
    loadPointer_of_names restored.stored restored.done (restored.names .latestCompleted)
  exact ⟨congrArg Prod.fst latest, congrArg Prod.fst completed⟩

theorem restored_of_writes (done : data.completed = true) (present : d.Present data)
    (few : (d.rivals data).length < fs.retainCompleted) :
    fs.Restored data (d.run (writes data)) := by
  obtain ⟨records, state⟩ := run_writes d data
  refine ⟨?_, done, ?_, fun name => pointer_writes d fun _ => done, fun owner mem => ?_⟩
  · rw [records]
    exact Disk.mem_writeRecord.2 (.inr rfl)
  · rw [rivals_writes]
    exact few
  · rw [Disk.Exists, state]
    exact present owner mem

theorem restored_of_saveLocked {tight : FileStorage π ν}
    (le : tight.retainCompleted ≤ fs.retainCompleted) (done : data.completed = true)
    (few : (d.rivals data).length < tight.retainCompleted) {program : List (FileStep π ν)}
    (saves : fs.saveLocked d data = some program) : tight.Restored data (d.run program) := by
  simp only [saveLocked] at saves
  split at saves
  · cases saves
    rw [Disk.run, Durable.run_append]
    exact ((robust_restored le data).retention (restored_of_writes done ‹_› few)).ends
  · cases saves

theorem Restored.writeState (restored : fs.Restored data d) (id : CheckpointID) (path : StatePath) :
    fs.Restored data (d.apply (.writeState id path)) := by
  refine { restored with present := fun owner mem => ?_ }
  obtain ⟨entry, inside, same, below⟩ := restored.present owner mem
  exact ⟨entry, mem_cons_of_mem _ inside, same, below⟩

theorem mem_of_saveLocked (waits : data.completed = false) {program : List (FileStep π ν)}
    (saves : fs.saveLocked d data = some program) : data ∈ (d.run program).records := by
  simp only [saveLocked] at saves
  split at saves
  · cases saves
    rw [Disk.run, Durable.run_append]
    refine (shrinks_enforceRetention fs _).ends.kept data ?_ (not_victim fun done => ?_)
    · rw [(run_writes d data).1]
      exact Disk.mem_writeRecord.2 (.inr rfl)
    · cases waits.symm.trans done
  · cases saves

theorem Restored.createSavepoint {tight : FileStorage π ν} (restored : tight.Restored data d)
    (le : tight.retainCompleted ≤ fs.retainCompleted) (put : Bool) :
    fs.createSavepoint d put = (fs.maintain d, if put then
      archiveCheckpoint (d.run (fs.maintain d)) data.id else none) := by
  have opened := ((robust_restored le data).maintain restored).ends
  have loads : fs.loadPointer (d.run (fs.maintain d)) .latestCompleted true = (some data, []) :=
    loadPointer_of_names opened.stored opened.done (opened.names .latestCompleted)
  simp only [FileStorage.createSavepoint, loads, append_nil]
  rfl

theorem savedRecord_archiveCheckpoint (stored : data ∈ d.records) (done : data.completed = true) :
    ∃ archive, archiveCheckpoint d data.id = some archive ∧ savedRecord archive = some data := by
  have found : d.loadSpecific data.id = some data := Disk.loadSpecific_eq_some.2 ⟨stored, rfl⟩
  have files : ∀ entries : List (ArchiveEntry π ν), (∀ entry ∈ entries, ∃ path,
      entry = .state (some path) true) →
        (extractEntries entries (some data)).2 = .ok (some data) := by
    intro entries
    induction entries with
    | nil => exact fun _ => rfl
    | cons entry rest ih =>
      intro all
      obtain ⟨path, rfl⟩ := all entry mem_cons_self
      exact ih fun later mem => all later (.tail _ mem)
  have same : { data with status := .completed } = data := by
    have status : data.status = .completed := of_decide_eq_true done
    rw [← status]
  refine ⟨_, by rw [archiveCheckpoint, found, Option.map_some], ?_⟩
  rw [savedRecord, extractEntries, files]
  · exact congrArg some same
  · intro entry mem
    obtain ⟨owner, -, inside⟩ := mem_flatMap.1 mem
    obtain ⟨held, -, rfl⟩ := mem_map.1 inside
    exact ⟨held.2, rfl⟩

theorem victim_of_rivals (stored : data ∈ d.records) (done : data.completed = true)
    (first : ∀ before after, fs.completed d = before ++ data :: after →
      ∀ other ∈ before, other ∉ d.rivals data)
    (many : fs.retainCompleted ≤ (d.rivals data).length) : data ∈ fs.victims d := by
  obtain ⟨before, after, parts⟩ :=
    append_of_mem (mem_completed.2 ⟨stored, done⟩ : data ∈ fs.completed d)
  have behind : d.rivals data ⊆ after := by
    intro other rival
    have facts := rival
    simp only [Disk.rivals, mem_filter, and_eq_true, decide_eq_true_eq] at facts
    obtain ⟨mem, ⟨complete, differs⟩, -⟩ := facts
    have listed : other ∈ fs.completed d := mem_completed.2 ⟨mem, complete⟩
    rw [parts, mem_append, mem_cons] at listed
    rcases listed with early | rfl | late
    · exact absurd rival (first before after parts other early)
    · exact absurd rfl differs
    · exact late
  have unique : (d.rivals data).Nodup := (Nodup.of_map _ d.distinct).filter _
  have short := (subperm_of_subset unique behind).length_le
  have place : before.length + 1 ≤ (fs.completed d).length - fs.retainCompleted := by
    rw [parts, length_append, length_cons]
    omega
  have near : data ∈ (fs.completed d).take (before.length + 1) := by
    rw [parts]
    simp [take_append]
  exact (take_sublist_take_left place).subset near

def earlyKey (id : CheckpointID) (a : CheckpointRecord π ν) : Lex (Lex (Time × Nat) × Nat) :=
  toLex (a.stamp, if a.id = id then 0 else 1)

def early (id : CheckpointID) : SortSlice π ν :=
  .byKey (earlyKey id) fun a b ordered => by
    rw [CheckpointRecord.not_less_iff]
    rcases Prod.Lex.toLex_le_toLex.1 ordered with older | ⟨same, -⟩
    · exact le_of_lt older
    · exact le_of_eq same

theorem victim_early (early : fs.sortSlice = early data.id) (stored : data ∈ d.records)
    (done : data.completed = true) (many : fs.retainCompleted ≤ (d.rivals data).length) :
    data ∈ fs.victims d := by
  refine victim_of_rivals stored done (fun before after parts other mem rival => ?_) many
  have sorted : (fs.completed d).Pairwise fun a b => earlyKey data.id a ≤ earlyKey data.id b := by
    have total : Std.Total fun a b :
      CheckpointRecord π ν => earlyKey data.id a ≤ earlyKey data.id b :=
      ⟨fun a b => le_total _ _⟩
    have trans :
      IsTrans (CheckpointRecord π ν) fun a b => earlyKey data.id a ≤ earlyKey data.id b :=
      ⟨fun _ _ _ => le_trans⟩
    rw [completed, scan, early]
    exact (pairwise_insertionSort _ d.records).filter _
  rw [parts] at sorted
  have ordered := (pairwise_append.1 sorted).2.2 other mem data mem_cons_self
  simp only [Disk.rivals, mem_filter, and_eq_true, decide_eq_true_eq,
    not_eq_true'] at rival
  obtain ⟨-, ⟨-, differs⟩, after⟩ := rival
  rw [earlyKey, earlyKey, if_neg differs, if_pos rfl, Prod.Lex.toLex_le_toLex] at ordered
  rcases ordered with older | ⟨-, impossible⟩
  · exact absurd older (not_lt.2 (CheckpointRecord.not_less_iff.1 after))
  · exact absurd impossible (Nat.not_succ_le_zero 0)

/-- What a restored savepoint is for: it is loaded, before and after the directory is opened again,
with its record and its state directories. -/
def TakesEffect (fs : FileStorage π ν) (data : CheckpointRecord π ν) (d : Disk π ν) : Prop :=
  ∀ after ∈ [d, d.run (fs.maintain d)], fs.load after = some data ∧
    fs.loadLatestCompleted after = some data ∧ data ∈ after.records ∧ after.Present data

theorem save_takesEffect_iff (fs : FileStorage π ν) (done : data.completed = true)
    (present : d.Present data) :
    (∀ sortSlice, TakesEffect { fs with sortSlice } data ((d.run (writes data)).run
      (enforceRetention { fs with sortSlice } (d.run (writes data))))) ↔
      (d.rivals data).length < fs.retainCompleted := by
  constructor
  · intro always
    by_contra many
    have effect := always (early data.id) _ mem_cons_self
    refine not_mem_of_victim (victim_early rfl ?_ done ?_) effect.2.2.1
    · rw [(run_writes d data).1]
      exact Disk.mem_writeRecord.2 (.inr rfl)
    · rw [rivals_writes]
      exact not_lt.1 many
  · intro few sortSlice after mem
    have written : Restored { fs with sortSlice } data (d.run (writes data)) :=
      restored_of_writes done present few
    have robust : FileStorage.Robust { fs with sortSlice } _ := robust_restored le_rfl data
    have restored := (robust.retention written).ends
    have here : Restored { fs with sortSlice } data after := by
      rcases mem_cons.1 mem with rfl | mem
      · exact restored
      · rw [mem_singleton.1 mem]
        exact (robust.maintain restored).ends
    exact ⟨here.loaded.1, here.loaded.2, here.stored, here.present⟩

theorem restoreSavepoint_ok {blobs : String → Option (List (ArchiveEntry π ν))} {label : String}
    {id : CheckpointID} (returns : (fs.restoreSavepoint d blobs label).2 = .ok id) :
    ∃ archive data, blobs (savepointKey label) = some archive ∧ savedRecord archive = some data ∧
      data.id = id ∧ data.completed = true ∧ (d.run (extractEntries archive none).1).Present data ∧
      ∀ other : FileStorage π ν, (other.restoreSavepoint d blobs label).1 =
        (extractEntries archive none).1 ++ (writes data ++
          other.enforceRetention ((d.run (extractEntries archive none).1).run (writes data))) := by
  cases found : blobs (savepointKey label) with
  | none => simp [restoreSavepoint, found] at returns
  | some archive =>
    cases extracts : extractEntries archive none with
    | mk steps result =>
      cases result with
      | error failure => simp [restoreSavepoint, found, extractCheckpoint, extracts] at returns
      | ok last =>
        cases last with
        | none => simp [restoreSavepoint, found, extractCheckpoint, extracts] at returns
        | some data =>
          by_cases present : (d.run steps).Present { data with status := .completed }
          · refine ⟨archive, { data with status := .completed }, rfl, ?_, ?_, rfl, ?_,
              fun other => ?_⟩
            · simp only [savedRecord, extracts]
            · simpa [restoreSavepoint, found, extractCheckpoint, extracts, saveLocked, present]
                using returns
            · rw [extracts]
              exact present
            · simp [restoreSavepoint, found, extractCheckpoint, extracts, saveLocked, present]
          · simp [restoreSavepoint, found, extractCheckpoint, extracts, saveLocked, present]
              at returns

/-- A savepoint that is restored without an error takes effect exactly when fewer completed
checkpoints of the destination than are kept are not before it. -/
theorem restoreSavepoint_takesEffect_iff (fs : FileStorage π ν) (d : Disk π ν)
    (blobs : String → Option (List (ArchiveEntry π ν))) (label : String) {id : CheckpointID}
    (returns : (fs.restoreSavepoint d blobs label).2 = .ok id) :
    ∃ archive data, blobs (savepointKey label) = some archive ∧ savedRecord archive = some data ∧
      data.id = id ∧ ((∀ sortSlice, TakesEffect { fs with sortSlice } data
        (d.run (restoreSavepoint { fs with sortSlice } d blobs label).1)) ↔
          (d.rivals data).length < fs.retainCompleted) := by
  obtain ⟨archive, data, found, saved, same, done, present, steps⟩ := restoreSavepoint_ok returns
  refine ⟨archive, data, found, saved, same, ?_⟩
  have rivals : (d.run (extractEntries archive none).1).rivals data = d.rivals data :=
    extractEntries_keeps (fun t => t.rivals data = d.rivals data)
      (fun _ _ _ kept => kept) rfl archive none
  have iff := save_takesEffect_iff fs done present
  rw [rivals] at iff
  rw [← iff]
  refine forall_congr' fun sortSlice => ?_
  rw [steps { fs with sortSlice }, Disk.run, Durable.run_append, Durable.run_append]

def holding (data : CheckpointRecord Unit Unit) : Disk Unit Unit where
  records := [data]
  pointer _ := some data.id

def savepoints (data : CheckpointRecord Unit Unit) :
    String → Option (List (ArchiveEntry Unit Unit)) :=
  fun _ => some [.record (some data)]

/-- A savepoint that is newer than the checkpoint of the destination takes effect. -/
theorem newer_takesEffect :
    ((holding (plain 1 .completed)).rivals (plain 2 .completed)).length < keepOne.retainCompleted ∧
    ∀ sortSlice, TakesEffect { keepOne with sortSlice } (plain 2 .completed)
      ((holding (plain 1 .completed)).run (restoreSavepoint { keepOne with sortSlice }
        (holding (plain 1 .completed)) (savepoints (plain 2 .prepared)) "upgrade").1) := by
  have few : ((holding (plain 1 .completed)).rivals (plain 2 .completed)).length <
    keepOne.retainCompleted := by
    decide +kernel
  obtain ⟨archive, data, found, saved, -, iff⟩ := restoreSavepoint_takesEffect_iff keepOne
    (holding (plain 1 .completed)) (savepoints (plain 2 .prepared)) "upgrade" rfl
  cases found
  cases saved
  exact ⟨few, iff.2 few⟩

/-- An older one is removed by the call that restores it. -/
theorem older_dropped :
    let restores := keepOne.restoreSavepoint (holding (plain 2 .completed))
      (savepoints (plain 1 .completed)) "upgrade"
    restores.2.toOption = some (plain 1 .completed).id ∧
      keepOne.load ((holding (plain 2 .completed)).run restores.1) = some (plain 2 .completed) ∧
      keepOne.loadLatestCompleted ((holding (plain 2 .completed)).run restores.1) =
        some (plain 2 .completed) ∧
      plain 1 .completed ∉ ((holding (plain 2 .completed)).run restores.1).records := by
  decide +kernel

end FileStorage

end Weibo.Checkpoint
