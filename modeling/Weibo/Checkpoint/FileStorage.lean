import Mathlib.Data.List.Sort
import Mathlib.Data.Prod.Lex
import Weibo.Checkpoint.Storage
import Weibo.Lib.Durable

/-!
# Checkpoint files

`FileStorage` keeps one record file per checkpoint, a directory of native state beside it, and two
pointer files. `Save` writes the record, then the pointers, then deletes the oldest completed
checkpoints. Temporary files, which nothing reads, are left out.
-/

namespace Weibo.Checkpoint

open List Option Function Bool

open Durable (Throughout)

/-- `checkpointSequence`: the last part of an id as a number of 64 bits, zero when it is a word. -/
def checkpointSequence (id : CheckpointID) : Nat :=
  match id.kind with
  | .periodic => min id.number (2 ^ 63 - 1)
  | .final => 0
  | .shutdown => 0

abbrev StatePath := List String

/-- `CheckpointData`, with the fields that only the file storage reads. -/
structure CheckpointRecord (π ν : Type) extends CheckpointData π ν where
  timestamp : Time
  stateDirs : List (String × StatePath) := []
  deriving DecidableEq

namespace CheckpointRecord

variable {π ν : Type} {a b c : CheckpointRecord π ν}

def less (a b : CheckpointRecord π ν) : Bool :=
  if a.timestamp = b.timestamp then checkpointSequence a.id < checkpointSequence b.id
  else a.timestamp < b.timestamp

def stamp (a : CheckpointRecord π ν) : Lex (Time × Nat) :=
  toLex (a.timestamp, checkpointSequence a.id)

theorem less_iff : a.less b = true ↔ a.stamp < b.stamp := by
  rw [stamp, stamp, Prod.Lex.toLex_lt_toLex, less]
  by_cases same : a.timestamp = b.timestamp
  · simp [same]
  · simp [same]

theorem not_less_iff : a.less b = false ↔ b.stamp ≤ a.stamp := by
  rw [← not_lt, ← less_iff, not_eq_true]

theorem timestamp_le (after : a.less b = false) : b.timestamp ≤ a.timestamp := by
  rcases Prod.Lex.toLex_le_toLex.1 (not_less_iff.1 after) with older | ⟨same, -⟩
  · exact le_of_lt older
  · exact le_of_eq same

theorem less_of_lt (older : a.timestamp < b.timestamp) : a.less b = true :=
  less_iff.2 (Prod.Lex.toLex_lt_toLex.2 (.inl older))

end CheckpointRecord

/-- `sort.Slice` with this comparison; records that compare equal may come in any order. -/
structure SortSlice (π ν : Type) where
  sort : List (CheckpointRecord π ν) → List (CheckpointRecord π ν)
  perm : ∀ records, (sort records).Perm records
  sorted : ∀ records, (sort records).Pairwise fun a b => b.less a = false

def SortSlice.byKey {π ν κ : Type} [LinearOrder κ] (key : CheckpointRecord π ν → κ)
    (refines : ∀ a b, key a ≤ key b → b.less a = false) : SortSlice π ν where
  sort := insertionSort fun a b => key a ≤ key b
  perm := perm_insertionSort _
  sorted records := by
    have total : Std.Total fun a b => key a ≤ key b := ⟨fun a b => le_total (key a) (key b)⟩
    have trans : IsTrans (CheckpointRecord π ν) fun a b => key a ≤ key b := ⟨fun _ _ _ => le_trans⟩
    exact (pairwise_insertionSort _ records).imp fun {a b} => refines a b

def SortSlice.insertion {π ν : Type} : SortSlice π ν :=
  .byKey CheckpointRecord.stamp fun _ _ => CheckpointRecord.not_less_iff.2

/-! ## The directory -/

inductive Pointer
  | latest
  | latestCompleted
  deriving DecidableEq

structure Disk (π ν : Type) where
  records : List (CheckpointRecord π ν) := []
  distinct : (records.map fun data => data.id).Nodup := by simp
  state : List (CheckpointID × StatePath) := []
  pointer : Pointer → Option CheckpointID := fun _ => none

inductive FileStep (π ν : Type)
  | writeRecord (data : CheckpointRecord π ν)
  | writePointer (name : Pointer) (id : CheckpointID)
  | writeState (id : CheckpointID) (path : StatePath)
  | removeRecord (id : CheckpointID)
  | removeState (id : CheckpointID) (path : StatePath)

namespace Disk

variable {π ν : Type}

theorem distinct_filter (d : Disk π ν) (id : CheckpointID) :
    ((d.records.filter fun old => old.id ≠ id).map fun data => data.id).Nodup :=
  d.distinct.sublist (filter_sublist.map _)

theorem distinct_replaced (d : Disk π ν) (data : CheckpointRecord π ν) :
    ((d.records.filter (fun old => old.id ≠ data.id) ++ [data]).map fun data => data.id).Nodup := by
  rw [map_append]
  refine nodup_append.2 ⟨d.distinct_filter data.id, by simp, ?_⟩
  intro id inside other single
  obtain ⟨old, stored, rfl⟩ := List.mem_map.1 inside
  rw [mem_singleton.1 single]
  exact of_decide_eq_true (mem_filter.1 stored).2

def apply (d : Disk π ν) : FileStep π ν → Disk π ν
  | .writeRecord data =>
    { d with
      records := d.records.filter (fun old => old.id ≠ data.id) ++ [data]
      distinct := d.distinct_replaced data }
  | .writePointer name id => { d with pointer := update d.pointer name (some id) }
  | .writeState id path => { d with state := (id, path) :: d.state }
  | .removeRecord id =>
    { d with
      records := d.records.filter fun old => old.id ≠ id
      distinct := d.distinct_filter id }
  | .removeState id path => { d with state := d.state.filter fun entry => entry ≠ (id, path) }

abbrev run (d : Disk π ν) (program : List (FileStep π ν)) : Disk π ν := Durable.run apply d program

def Exists (d : Disk π ν) (id : CheckpointID) (path : StatePath) : Prop :=
  ∃ entry ∈ d.state, entry.1 = id ∧ path <+: entry.2

instance (d : Disk π ν) (id : CheckpointID) (path : StatePath) : Decidable (d.Exists id path) :=
  inferInstanceAs (Decidable (∃ entry ∈ d.state, entry.1 = id ∧ path <+: entry.2))

def Present (d : Disk π ν) (data : CheckpointRecord π ν) : Prop :=
  ∀ owner ∈ data.stateDirs, d.Exists data.id owner.2

instance (d : Disk π ν) (data : CheckpointRecord π ν) : Decidable (d.Present data) :=
  inferInstanceAs (Decidable (∀ owner ∈ data.stateDirs, d.Exists data.id owner.2))

def loadSpecific (d : Disk π ν) (id : CheckpointID) : Option (CheckpointRecord π ν) :=
  d.records.find? fun data => data.id = id

/-- `sweepOrphansLocked`: the state directories without a record. -/
def sweepOrphans (d : Disk π ν) : List (FileStep π ν) :=
  (d.state.filter fun entry => (d.loadSpecific entry.1).isNone).map fun entry =>
    .removeState entry.1 entry.2

theorem eq_of_id (d : Disk π ν) {a b : CheckpointRecord π ν} (first : a ∈ d.records)
    (second : b ∈ d.records) (same : a.id = b.id) : a = b :=
  inj_on_of_nodup_map d.distinct first second same

variable {d : Disk π ν} {id : CheckpointID}

theorem loadSpecific_eq_some {data : CheckpointRecord π ν} :
    d.loadSpecific id = some data ↔ data ∈ d.records ∧ data.id = id := by
  constructor
  · intro found
    exact ⟨mem_of_find?_eq_some found, by simpa using List.find?_some found⟩
  · rintro ⟨stored, rfl⟩
    cases found : d.loadSpecific data.id with
    | none => exact absurd (List.find?_eq_none.1 found data stored) (by simp)
    | some other =>
      have same : other.id = data.id := by simpa using List.find?_some found
      rw [d.eq_of_id (mem_of_find?_eq_some found) stored same]

theorem loadSpecific_eq_none : d.loadSpecific id = none ↔ ∀ data ∈ d.records, data.id ≠ id := by
  simp [loadSpecific]

theorem mem_writeRecord {data other : CheckpointRecord π ν} :
    other ∈ (d.apply (.writeRecord data)).records ↔
      (other ∈ d.records ∧ other.id ≠ data.id) ∨ other = data := by
  simp [apply]

theorem mem_removeRecord {other : CheckpointRecord π ν} :
    other ∈ (d.apply (.removeRecord id)).records ↔ other ∈ d.records ∧ other.id ≠ id := by
  simp [apply]

@[simp]
theorem pointer_self (d : Disk π ν) (name : Pointer) (id : CheckpointID) :
    (d.apply (.writePointer name id)).pointer name = some id := update_self ..

theorem pointer_of_ne (d : Disk π ν) {name other : Pointer} (differs : other ≠ name)
    (id : CheckpointID) : (d.apply (.writePointer name id)).pointer other = d.pointer other :=
  update_of_ne differs ..

def deleteStateDirs (d : Disk π ν) (id : CheckpointID) : List (FileStep π ν) :=
  (d.state.filter fun entry => entry.1 = id).map fun entry => .removeState entry.1 entry.2

/-- What stands beside a checkpoint when the oldest completed ones are chosen: completed ones that
are not before it. -/
def rivals (d : Disk π ν) (data : CheckpointRecord π ν) : List (CheckpointRecord π ν) :=
  d.records.filter fun other => other.completed && other.id ≠ data.id && !other.less data

theorem rivals_writeRecord (d : Disk π ν) (data : CheckpointRecord π ν) :
    (d.apply (.writeRecord data)).rivals data = d.rivals data := by
  simp only [rivals, apply, filter_append, List.filter_filter]
  simp only [filter_cons, filter_nil, ne_eq, not_true_eq_false, decide_false,
    Bool.and_false, Bool.false_and, false_eq_true, if_false, append_nil]
  refine filter_congr fun other _ => ?_
  cases decide (other.id = data.id) <;> simp_all

end Disk

/-! ## The storage -/

structure FileStorage (π ν : Type) where
  retainCompleted : Nat
  retains : 1 ≤ retainCompleted
  sortSlice : SortSlice π ν

namespace FileStorage

variable {π ν : Type} (fs : FileStorage π ν) (d : Disk π ν)

/-- `scanLocked`: the records, the newest last. -/
def scan : List (CheckpointRecord π ν) := fs.sortSlice.sort d.records

def usable (completedOnly : Bool) (data : CheckpointRecord π ν) : Bool :=
  !completedOnly || data.completed

/-- `loadPointerLocked`: the checkpoint that the pointer file names, or else the newest one, to
which the file is then set. -/
def loadPointer (name : Pointer) (completedOnly : Bool) :
    Option (CheckpointRecord π ν) × List (FileStep π ν) :=
  match ((d.pointer name).bind d.loadSpecific).filter (usable completedOnly) with
  | some data => (some data, [])
  | none =>
    match (fs.scan d).reverse.find? (usable completedOnly) with
    | some data => (some data, [.writePointer name data.id])
    | none => (none, [])

def load : Option (CheckpointRecord π ν) := (fs.loadPointer d .latest false).1

def loadLatestCompleted : Option (CheckpointRecord π ν) :=
  (fs.loadPointer d .latestCompleted true).1

def completed : List (CheckpointRecord π ν) := (fs.scan d).filter fun data => data.completed

/-- The victims of `enforceRetentionLocked`: the first ones, until few enough are left. -/
def victims : List (CheckpointRecord π ν) :=
  (fs.completed d).take ((fs.completed d).length - fs.retainCompleted)

/-- `enforceRetentionLocked`: the record of a victim goes before its state directory. -/
def enforceRetention : List (FileStep π ν) :=
  (fs.victims d).flatMap fun victim => .removeRecord victim.id :: d.deleteStateDirs victim.id

/-- The files that `saveLocked` writes. -/
def writes (data : CheckpointRecord π ν) : List (FileStep π ν) :=
  [.writeRecord data, .writePointer .latest data.id] ++
    if data.completed then [.writePointer .latestCompleted data.id] else []

/-- `saveLocked`; an error when a state directory is missing. -/
def saveLocked (data : CheckpointRecord π ν) : Option (List (FileStep π ν)) :=
  if d.Present data then some (writes data ++ fs.enforceRetention (d.run (writes data))) else none

/-- `UpdateStatus`; an error when there is no such checkpoint. -/
def updateStatus (id : CheckpointID) (status : Status) : Option (List (FileStep π ν)) :=
  (d.loadSpecific id).bind fun data => fs.saveLocked d { data with status }

def repairs : List (FileStep π ν) :=
  let first := (fs.loadPointer d .latest false).2
  first ++ (fs.loadPointer (d.run first) .latestCompleted true).2

/-- `maintainLocked`, which opens a directory. -/
def maintain : List (FileStep π ν) :=
  let swept := d.run d.sweepOrphans
  d.sweepOrphans ++ fs.repairs swept ++ fs.enforceRetention (swept.run (fs.repairs swept))

variable {fs} {d}

/-! ## What is written -/

theorem run_writes (d : Disk π ν) (data : CheckpointRecord π ν) :
    (d.run (writes data)).records = (d.apply (.writeRecord data)).records ∧
      (d.run (writes data)).state = d.state := by
  by_cases done : data.completed = true
  · simp only [writes, if_pos done]
    exact ⟨rfl, rfl⟩
  · simp only [writes, if_neg done]
    exact ⟨rfl, rfl⟩

theorem rivals_writes (d : Disk π ν) (data : CheckpointRecord π ν) :
    (d.run (writes data)).rivals data = d.rivals data := by
  rw [Disk.rivals, (run_writes d data).1]
  exact d.rivals_writeRecord data

variable {data : CheckpointRecord π ν}

theorem pointer_writes (d : Disk π ν) {name : Pointer} (set : name = .latestCompleted →
    data.completed = true) : (d.run (writes data)).pointer name = some data.id := by
  by_cases done : data.completed = true
  · simp only [writes, if_pos done]
    cases name with
    | latest => exact (Disk.pointer_of_ne _ (by decide) _).trans (Disk.pointer_self ..)
    | latestCompleted => exact Disk.pointer_self ..
  · simp only [writes, if_neg done]
    cases name with
    | latest => exact Disk.pointer_self ..
    | latestCompleted => exact absurd (set rfl) done

/-! ## What is loaded -/

inductive Loads (d : Disk π ν) (name : Pointer) (completedOnly : Bool) :
    Option (CheckpointRecord π ν) × List (FileStep π ν) → Prop
  | pointed {data : CheckpointRecord π ν} (stored : data ∈ d.records)
      (use : usable completedOnly data = true) (names : d.pointer name = some data.id) :
      Loads d name completedOnly (some data, [])
  | scanned {data : CheckpointRecord π ν} (stored : data ∈ d.records)
      (use : usable completedOnly data = true)
      (dangles : ∀ other ∈ d.records, d.pointer name = some other.id →
        usable completedOnly other = false)
      (newest : ∀ other ∈ d.records, usable completedOnly other = true → data.less other = false) :
      Loads d name completedOnly (some data, [.writePointer name data.id])
  | nothing (empty : ∀ other ∈ d.records, usable completedOnly other = false) :
      Loads d name completedOnly (none, [])

theorem newest_of_scan {completedOnly : Bool}
    (found : (fs.scan d).reverse.find? (usable completedOnly) = some data) :
    data ∈ d.records ∧ usable completedOnly data = true ∧
      ∀ other ∈ d.records, usable completedOnly other = true → data.less other = false := by
  obtain ⟨use, later, earlier, split, unusable⟩ := List.find?_eq_some_iff_append.1 found
  have parts : fs.scan d = earlier.reverse ++ data :: later.reverse := by
    rw [← reverse_reverse (fs.scan d), split]
    simp
  have stored : ∀ {other}, other ∈ fs.scan d ↔ other ∈ d.records :=
    (fs.sortSlice.perm d.records).mem_iff
  have sorted := fs.sortSlice.sorted d.records
  rw [← scan, parts] at sorted
  refine ⟨stored.1 (by simp [parts]), use, fun other mem useful => ?_⟩
  have place := stored.2 mem
  rw [parts, mem_append, mem_cons] at place
  rcases place with before | rfl | after
  · exact (pairwise_append.1 sorted).2.2 other before data mem_cons_self
  · exact CheckpointRecord.not_less_iff.2 le_rfl
  · have unused := unusable other (mem_reverse.1 after)
    rw [useful] at unused
    cases unused

theorem loads (fs : FileStorage π ν) (d : Disk π ν) (name : Pointer) (completedOnly : Bool) :
    Loads d name completedOnly (fs.loadPointer d name completedOnly) := by
  simp only [loadPointer]
  split
  next data found =>
    obtain ⟨points, use⟩ := filter_eq_some_iff.1 found
    obtain ⟨id, names, specific⟩ := bind_eq_some_iff.1 points
    obtain ⟨stored, rfl⟩ := Disk.loadSpecific_eq_some.1 specific
    exact .pointed stored use names
  next missing =>
    split
    next data found =>
      obtain ⟨stored, use, newest⟩ := newest_of_scan found
      refine .scanned stored use (fun other mem names => ?_) newest
      have specific := Disk.loadSpecific_eq_some.2 ⟨mem, rfl⟩
      rw [names, bind_some, specific] at missing
      simpa using missing
    next unfound =>
      refine .nothing fun other mem => ?_
      have unused := List.find?_eq_none.1 unfound other
      rw [mem_reverse, scan, (fs.sortSlice.perm d.records).mem_iff] at unused
      simpa using unused mem

theorem loadPointer_of_names {name : Pointer} {completedOnly : Bool} (stored : data ∈ d.records)
    (use : usable completedOnly data = true) (names : d.pointer name = some data.id) :
    fs.loadPointer d name completedOnly = (some data, []) := by
  have specific : d.loadSpecific data.id = some data := Disk.loadSpecific_eq_some.2 ⟨stored, rfl⟩
  simp only [loadPointer, names, bind_some, specific, filter_some, use, if_true]

/-! ## What retention removes -/

theorem mem_completed : data ∈ fs.completed d ↔ data ∈ d.records ∧ data.completed = true := by
  rw [completed, mem_filter, scan, (fs.sortSlice.perm d.records).mem_iff]

theorem length_completed :
    (fs.completed d).length = (d.records.filter fun data => data.completed).length :=
  ((fs.sortSlice.perm d.records).filter _).length_eq

theorem nodup_completed : (fs.completed d).Nodup := by
  have records : d.records.Nodup := Nodup.of_map _ d.distinct
  exact ((fs.sortSlice.perm d.records).nodup_iff.2 records).filter _

theorem sorted_completed : (fs.completed d).Pairwise fun a b => b.less a = false :=
  (fs.sortSlice.sorted d.records).filter _

theorem completed_of_victim
    (victim : data ∈ fs.victims d) : data ∈ d.records ∧ data.completed = true :=
  mem_completed.1 (mem_of_mem_take victim)

theorem retained_le_rivals
    (victim : data ∈ fs.victims d) : fs.retainCompleted ≤ (d.rivals data).length := by
  have parts := take_append_drop ((fs.completed d).length - fs.retainCompleted) (fs.completed d)
  have many : fs.retainCompleted ≤ (fs.completed d).length := by
    by_contra few
    have none : (fs.completed d).length - fs.retainCompleted = 0 := by omega
    rw [victims, none, take_zero] at victim
    cases victim
  have unique : (fs.completed d).Nodup := nodup_completed
  have sorted : (fs.completed d).Pairwise fun a b => b.less a = false := sorted_completed
  rw [← parts] at unique sorted
  -- The ones that are left are all rivals of a victim.
  have left :
    (fs.completed d).drop ((fs.completed d).length - fs.retainCompleted) ⊆ d.rivals data := by
    intro other mem
    obtain ⟨stored, done⟩ := mem_completed.1 (mem_of_mem_drop mem)
    have after := (pairwise_append.1 sorted).2.2 data victim other mem
    have differs : other.id ≠ data.id := by
      intro same
      have equal := d.eq_of_id stored (completed_of_victim victim).1 same
      exact (nodup_append.1 unique).2.2 data victim other mem equal.symm
    simp only [Disk.rivals, mem_filter]
    simp [stored, done, differs, after]
  have short := (subperm_of_subset (nodup_append.1 unique).2.1 left).length_le
  rw [length_drop] at short
  omega

theorem victims_eq_nil
    (few : (d.records.filter fun data => data.completed).length ≤ fs.retainCompleted) :
    fs.victims d = [] := by
  have none : (fs.completed d).length - fs.retainCompleted = 0 := by
    rw [length_completed]
    omega
  rw [victims, none, take_zero]

theorem not_victim (few : data.completed = true → (d.rivals data).length < fs.retainCompleted) :
    data ∉ fs.victims d := by
  intro victim
  have many := retained_le_rivals victim
  have less := few (completed_of_victim victim).2
  omega

/-! ## What removals leave -/

structure Shrinks (gone : CheckpointRecord π ν → Prop) (d after : Disk π ν) : Prop where
  pointer : after.pointer = d.pointer
  subset : ∀ data ∈ after.records, data ∈ d.records
  kept : ∀ data ∈ d.records, ¬gone data → data ∈ after.records
  state : ∀ data ∈ after.records, ∀ path, (data.id, path) ∈ d.state → (data.id, path) ∈ after.state

namespace Shrinks

variable {gone : CheckpointRecord π ν → Prop} {after next : Disk π ν}

theorem refl (gone : CheckpointRecord π ν → Prop) (d : Disk π ν) : Shrinks gone d d :=
  ⟨rfl, fun _ mem => mem, fun _ mem _ => mem, fun _ _ _ mem => mem⟩

theorem present (shrinks : Shrinks gone d after) {data : CheckpointRecord π ν}
    (stored : data ∈ after.records) (present : d.Present data) : after.Present data := by
  intro owner mem
  obtain ⟨⟨id, path⟩, inside, rfl, below⟩ := present owner mem
  exact ⟨_, shrinks.state data stored path inside, rfl, below⟩

theorem removeRecord (shrinks : Shrinks gone d after) {victim : CheckpointRecord π ν}
    (dead : gone victim) (stored : victim ∈ d.records) :
    Shrinks gone d (after.apply (.removeRecord victim.id)) where
  pointer := shrinks.pointer
  subset data mem := shrinks.subset data (Disk.mem_removeRecord.1 mem).1
  kept data mem alive := by
    refine Disk.mem_removeRecord.2 ⟨shrinks.kept data mem alive, fun same => alive ?_⟩
    rw [d.eq_of_id mem stored same]
    exact dead
  state data mem path inside := shrinks.state data (Disk.mem_removeRecord.1 mem).1 path inside

theorem removeState (shrinks : Shrinks gone d after) {id : CheckpointID}
    (orphan : ∀ data ∈ after.records, data.id ≠ id) (path : StatePath) :
    Shrinks gone d (after.apply (.removeState id path)) where
  pointer := shrinks.pointer
  subset := shrinks.subset
  kept := shrinks.kept
  state data mem other inside := by
    refine mem_filter.2 ⟨shrinks.state data mem other inside, ?_⟩
    have differs := orphan data mem
    simp [differs]

end Shrinks

theorem shrinks_enforceRetention (fs : FileStorage π ν) (d : Disk π ν) :
    Throughout Disk.apply (Shrinks (· ∈ fs.victims d) d) d (fs.enforceRetention d) := by
  refine Durable.throughout_flatMap (Shrinks.refl _ d) fun t victim mem shrinks => ⟨shrinks, ?_⟩
  have removed := shrinks.removeRecord mem (completed_of_victim mem).1
  have orphan : ∀ data ∈ (t.apply (.removeRecord victim.id)).records, data.id ≠ victim.id :=
    fun data inside => (Disk.mem_removeRecord.1 inside).2
  -- While the state directory is removed, the record stays absent.
  refine Throughout.mono (?_ : Throughout Disk.apply (fun u =>
    Shrinks (· ∈ fs.victims d) d u ∧ ∀ data ∈ u.records, data.id ≠ victim.id) _ _)
      fun u both =>
      both.1
  refine Durable.throughout_of_steps ⟨removed, orphan⟩ ?_
  rintro u step inside ⟨shrinks, orphan⟩
  obtain ⟨⟨id, path⟩, owned, rfl⟩ := List.mem_map.1 inside
  obtain rfl : id = victim.id := by simpa using (mem_filter.1 owned).2
  exact ⟨shrinks.removeState orphan path, orphan⟩

theorem shrinks_sweepOrphans (d : Disk π ν) :
    Throughout Disk.apply (Shrinks (fun _ => False) d) d d.sweepOrphans := by
  refine Durable.throughout_of_steps (Shrinks.refl _ d) fun t step inside shrinks => ?_
  obtain ⟨⟨id, path⟩, owned, rfl⟩ := List.mem_map.1 inside
  have missing : d.loadSpecific id = none := by simpa using (mem_filter.1 owned).2
  refine shrinks.removeState (fun data mem => ?_) path
  exact Disk.loadSpecific_eq_none.1 missing data (shrinks.subset data mem)

theorem Shrinks.length_filter_le {gone : CheckpointRecord π ν → Prop} {after : Disk π ν}
    (shrinks : Shrinks gone d after) (p : CheckpointRecord π ν → Bool) :
    (after.records.filter p).length ≤ (d.records.filter p).length := by
  have unique : (after.records.filter p).Nodup := (Nodup.of_map _ after.distinct).filter p
  refine (subperm_of_subset unique fun data mem => ?_).length_le
  obtain ⟨stored, holds⟩ := mem_filter.1 mem
  exact mem_filter.2 ⟨shrinks.subset data stored, holds⟩

theorem id_ne_of_removed {id : CheckpointID} {program : List (FileStep π ν)}
    (shrinking : ∀ step ∈ program, ∀ t : Disk π ν, (t.apply step).records ⊆ t.records) (removes :
    FileStep.removeRecord id ∈ program) (left : data ∈ (d.run program).records) : data.id ≠ id := by
  induction program generalizing d with
  | nil => cases removes
  | cons step rest ih =>
    have later := fun other mem => shrinking other (mem_cons_of_mem step mem)
    rcases mem_cons.1 removes with rfl | removes
    · have subset : (Durable.run Disk.apply (d.apply (.removeRecord id)) rest).records ⊆
          (d.apply (.removeRecord id)).records := by
        refine (Durable.throughout_of_steps (fun _ mem => mem) fun t other mem subset => ?_ :
          Throughout Disk.apply
            (fun t => t.records ⊆ (d.apply (.removeRecord id)).records) _ rest).ends
        exact Subset.trans (later other mem t) subset
      exact (Disk.mem_removeRecord.1 (subset left)).2
    · exact ih later removes left

theorem not_mem_of_victim (victim : data ∈ fs.victims d) :
    data ∉ (d.run (fs.enforceRetention d)).records := by
  have shrinking : ∀ step ∈ fs.enforceRetention d, ∀ t : Disk π ν,
      (t.apply step).records ⊆ t.records := by
    intro step mem t
    obtain ⟨victim, -, inside⟩ := mem_flatMap.1 mem
    rcases mem_cons.1 inside with rfl | inside
    · exact fun data mem => (Disk.mem_removeRecord.1 mem).1
    · obtain ⟨entry, -, rfl⟩ := List.mem_map.1 inside
      exact fun data mem => mem
  have removes : FileStep.removeRecord data.id ∈ fs.enforceRetention d :=
    mem_flatMap.2 ⟨data, victim, mem_cons_self⟩
  exact fun left => id_ne_of_removed shrinking removes left rfl

theorem length_completed_le (fs : FileStorage π ν) (d : Disk π ν) :
    ((d.run (fs.enforceRetention d)).records.filter fun data => data.completed).length ≤
      fs.retainCompleted := by
  have shrinks := (shrinks_enforceRetention fs d).ends
  have rest : ((d.run (fs.enforceRetention d)).records.filter fun data => data.completed) ⊆
      (fs.completed d).drop ((fs.completed d).length - fs.retainCompleted) := by
    intro data mem
    obtain ⟨left, done⟩ := mem_filter.1 mem
    have listed : data ∈ fs.completed d := mem_completed.2 ⟨shrinks.subset data left, done⟩
    rw [← take_append_drop ((fs.completed d).length - fs.retainCompleted) (fs.completed d),
      mem_append] at listed
    exact listed.resolve_left fun victim => not_mem_of_victim victim left
  have unique := (Nodup.of_map _ (d.run (fs.enforceRetention d)).distinct).filter
    fun data => data.completed
  have short := (subperm_of_subset unique rest).length_le
  rw [length_drop] at short
  omega

theorem length_completed_le_of_saveLocked
    {program : List (FileStep π ν)} (saves : fs.saveLocked d data = some program) :
    ((d.run program).records.filter fun data => data.completed).length ≤ fs.retainCompleted := by
  simp only [saveLocked] at saves
  split at saves
  · cases saves
    rw [Disk.run, Durable.run_append]
    exact length_completed_le fs _
  · cases saves

theorem length_completed_le_of_maintain (fs : FileStorage π ν) (d : Disk π ν) :
    ((d.run (fs.maintain d)).records.filter fun data => data.completed).length ≤
    fs.retainCompleted := by
  rw [maintain, Disk.run, Durable.run_append, Durable.run_append]
  exact length_completed_le fs _

/-! ## What every call keeps -/

structure Robust (fs : FileStorage π ν) (holds : Disk π ν → Prop) : Prop where
  shrink : ∀ {gone : CheckpointRecord π ν → Prop} {d after : Disk π ν}, holds d →
    Shrinks gone d after → (∀ data, gone data → data ∈ fs.victims d) → holds after
  repair : ∀ {d : Disk π ν} {name : Pointer} {data : CheckpointRecord π ν}, holds d →
    Loads d name (name = .latestCompleted) (some data, [.writePointer name data.id]) →
    holds (d.apply (.writePointer name data.id))

namespace Robust

variable {holds : Disk π ν → Prop}

theorem retention (robust : fs.Robust holds) (initial : holds d) :
    Throughout Disk.apply holds d (fs.enforceRetention d) :=
  (shrinks_enforceRetention fs d).mono fun _ shrinks => robust.shrink initial shrinks fun _ gone =>
    gone

theorem load (robust : fs.Robust holds) (initial : holds d) (name : Pointer) :
    Throughout Disk.apply holds d (fs.loadPointer d name (name = .latestCompleted)).2 := by
  have loaded := fs.loads d name (name = .latestCompleted)
  generalize fs.loadPointer d name (name = .latestCompleted) = result at loaded
  cases loaded with
  | pointed stored use names | nothing empty => exact initial
  | scanned stored use dangles newest =>
    exact ⟨initial, robust.repair initial (.scanned stored use dangles newest)⟩

theorem maintain (robust : fs.Robust holds) (initial : holds d) :
    Throughout Disk.apply holds d (fs.maintain d) := by
  have swept : Throughout Disk.apply holds d d.sweepOrphans :=
    (shrinks_sweepOrphans d).mono fun _ shrinks => robust.shrink initial shrinks fun _ gone =>
      gone.elim
  have first := robust.load swept.ends .latest
  have repaired : Throughout Disk.apply holds (d.run d.sweepOrphans)
      (fs.repairs (d.run d.sweepOrphans)) := first.append (robust.load first.ends .latestCompleted)
  refine (swept.append repaired).append ?_
  rw [Durable.run_append]
  exact robust.retention repaired.ends

theorem saveLocked (robust : fs.Robust holds) {data : CheckpointRecord π ν}
    {program : List (FileStep π ν)} (saves : fs.saveLocked d data = some program) (written :
    Throughout Disk.apply holds d (writes data)) : Throughout Disk.apply holds d program := by
  simp only [FileStorage.saveLocked] at saves
  split at saves
  · cases saves
    exact written.append (robust.retention written.ends)
  · cases saves

end Robust

/-! ## A small storage -/

def keepOne : FileStorage Unit Unit := ⟨1, le_rfl, .insertion⟩

def plain (number : Nat) (status : Status) : CheckpointRecord Unit Unit where
  id := ⟨0, number, .periodic⟩
  source := none
  operators := none
  status
  timestamp := number

end FileStorage

end Weibo.Checkpoint
