import Weibo.Checkpoint.CrashRuns

/-!
# The storage that the commit protocol relies on

The commit protocol is verified against `Storage`, a list of checkpoints in the order in which they
were written. While no call is interrupted, the files of `FileStorage` show the same: retention only
removes completed checkpoints that neither `Load` nor `LoadLatestCompleted` would return.
-/

namespace Weibo.Checkpoint

open List Option

open Transition (Reach of_ite_none of_ite_some)
open FileStorage (usable writes)

variable {π ν : Type}

/-- What an event does to the list. -/
def Storage.follow (store : Storage π ν) : StorageEvent π ν → Storage π ν
  | .call (.save data) => store.save data.toCheckpointData
  | .call .promote => (store.load.bind fun data => store.updateStatus data.id .completed).getD store
  | _ => store

namespace StorageWorld

variable (fs : FileStorage π ν)

/-- The files and the list side by side. -/
def stepBoth (both : StorageWorld π ν × Storage π ν) (event : StorageEvent π ν) :
    Option (StorageWorld π ν × Storage π ν) :=
  (both.1.step fs event).map (·, both.2.follow event)

/-- No call fails and nothing is interrupted. -/
def Smooth (both : StorageWorld π ν × Storage π ν) : StorageEvent π ν → Prop
  | .call call => (call.program fs both.1.disk).isSome = true
  | .crash _ _ | .crashReopen _ => False
  | _ => True

/-- What a pointer should name after all of `written`. -/
def named (written : List (CheckpointRecord π ν)) (name : Pointer) :
    Option (CheckpointRecord π ν) :=
  (written.filter (usable (name = .latestCompleted))).getLast?

/-- The files hold what is needed of `written`. -/
structure Holds (written : List (CheckpointRecord π ν)) (d : Disk π ν) : Prop where
  ordered : written.Pairwise fun a b => a.timestamp < b.timestamp
  within : ∀ data ∈ d.records, data ∈ written
  held :
    ∀ name data, named written name = some data → data ∈ d.records ∧ d.pointer name = some data.id

variable {fs} {written front : List (CheckpointRecord π ν)} {d : Disk π ν} {data other :
    CheckpointRecord π ν}
  {name : Pointer} {program : List (FileStep π ν)}

theorem usable_of_named (is : named written name = some data) :
    usable (name = .latestCompleted) data = true :=
  (mem_filter.1 (mem_of_getLast? is)).2

theorem named_latest : named written .latest = written.getLast? := by
  rw [named, filter_eq_self.2]
  simp [usable]

theorem Holds.unused (holds : Holds written d) (is : named written name = none)
    (stored : other ∈ d.records) : usable (name = .latestCompleted) other = false := by
  have pending := filter_eq_nil_iff.1 (getLast?_eq_none_iff.1 is) other (holds.within other stored)
  simpa using pending

theorem Holds.loadPointer (holds : Holds written d) (name : Pointer) :
    fs.loadPointer d name (name = .latestCompleted) = (named written name, []) := by
  cases is : named written name with
  | some data =>
    obtain ⟨stored, names⟩ := holds.held name data is
    exact FileStorage.loadPointer_of_names stored (usable_of_named is) names
  | none =>
    have loaded := fs.loads d name (name = .latestCompleted)
    generalize fs.loadPointer d name (name = .latestCompleted) = result at loaded
    cases loaded with
    | pointed stored use _ | scanned stored use _ _ => simp [holds.unused is stored] at use
    | nothing _ => rfl

/-- Retention leaves what a pointer names: no completed checkpoint is after it. -/
theorem Holds.not_victim (holds : Holds written d)
    (is : named written name = some data) : data ∉ fs.victims d := by
  refine FileStorage.not_victim fun done => ?_
  have none : d.rivals data = [] := by
    refine filter_eq_nil_iff.2 fun other stored rival => ?_
    simp only [Bool.and_eq_true, decide_eq_true_eq, Bool.not_eq_true'] at rival
    have inside :=
      mem_filter.2 ⟨holds.within other stored, show usable (name = .latestCompleted) other = true by
      simp [usable, rival.1.1]⟩
    have ordered := holds.ordered.sublist (filter_sublist (p := usable (name = .latestCompleted)))
    obtain ⟨front, split⟩ := getLast?_eq_some_iff.1 is
    rw [split] at inside ordered
    rcases mem_append.1 inside with before | here
    · have less := CheckpointRecord.less_of_lt
        ((pairwise_append.1 ordered).2.2 other before data mem_cons_self)
      rw [less] at rival
      exact absurd rival.2 (by decide)
    · exact rival.1.2 (congrArg (·.id) (mem_singleton.1 here))
  rw [none]
  exact fs.retains

theorem holds_robust : fs.Robust (Holds written) where
  shrink holds shrinks victims := by
    refine ⟨holds.ordered, fun data stored => holds.within data (shrinks.subset data stored),
      fun name data is => ?_⟩
    obtain ⟨stored, names⟩ := holds.held name data is
    exact ⟨shrinks.kept data stored fun gone => holds.not_victim is (victims data gone),
      shrinks.pointer ▸ names⟩
  repair {d name data} holds loads := by
    cases loads with
    | scanned stored use dangles newest =>
      cases is : named written name with
      | none => simp [holds.unused is stored] at use
      | some other =>
        obtain ⟨here, names⟩ := holds.held name other is
        exact absurd (usable_of_named is) (by simp [dangles other here names])

/-- `saveLocked` replaces the end of what was written. -/
theorem holds_saved (ordered : (front ++ [data]).Pairwise fun a b => a.timestamp < b.timestamp)
    (within : ∀ old ∈ d.records, old.id ≠ data.id → old ∈ front)
    (done : data.completed = false → ∀ old, named front .latestCompleted = some old →
      old ∈ d.records ∧ old.id ≠ data.id ∧ d.pointer .latestCompleted = some old.id)
    (saves : fs.saveLocked d data = some program) : Holds (front ++ [data]) (d.run program) := by
  have mem : ∀ {old}, old ∈ (d.run (writes data)).records ↔ (old ∈ d.records ∧ old.id ≠ data.id) ∨
    old = data := by
    intro old
    rw [(FileStorage.run_writes d data).1, Disk.mem_writeRecord]
  have wrote : Holds (front ++ [data]) (d.run (writes data)) := by
    refine ⟨ordered, fun old stored => ?_, fun name old is => ?_⟩
    · rcases mem.1 stored with ⟨stored, differs⟩ | rfl
      · exact mem_append_left _ (within old stored differs)
      · exact mem_append_right _ mem_cons_self
    · cases use : usable (name = .latestCompleted) data with
      | true =>
        obtain rfl : data = old := by simpa [named, filter_append, use] using is
        refine ⟨mem.2 (.inr rfl), FileStorage.pointer_writes d fun completed => ?_⟩
        simpa [usable, completed] using use
      | false =>
        cases name with
        | latest => cases use
        | latestCompleted =>
          have status : usable true data = false := use
          have is : named front .latestCompleted = some old := by
            simpa [named, filter_append, status] using is
          obtain ⟨stored, differs, names⟩ := done use old is
          refine ⟨mem.2 (.inl ⟨stored, differs⟩), ?_⟩
          have status : data.completed = false := use
          simp only [writes, status, Bool.false_eq_true, if_false, append_nil]
          exact (Disk.pointer_of_ne _ (by decide) _).trans names
  obtain ⟨-, rfl⟩ := Transition.of_ite_some saves
  rw [Disk.run, Durable.run_append]
  exact (holds_robust.retention wrote).ends

/-! ## Runs -/

/-- All that was written, at its last status. -/
structure Refined (fs : FileStorage π ν) (w : StorageWorld π ν) (store : Storage π ν)
    (written : List (CheckpointRecord π ν)) : Prop where
  holds : Holds written w.disk
  same : store = written.map (·.toCheckpointData)
  distinct : (written.map fun data => data.id).Nodup
  used : ∀ data ∈ written, data.id ∈ w.used ∧ ∃ t ∈ w.clock, data.timestamp ≤ t
  retained : (w.disk.records.filter fun data => data.completed).length ≤ fs.retainCompleted

def Shown (fs : FileStorage π ν) (both : StorageWorld π ν × Storage π ν) : Prop :=
  ∃ written, Refined fs both.1 both.2 written

variable {w after : StorageWorld π ν} {store : Storage π ν}

theorem Refined.load (refined : Refined fs w store written) : fs.load w.disk = written.getLast? :=
  (congrArg Prod.fst (refined.holds.loadPointer .latest)).trans named_latest

theorem Refined.save (refined : Refined fs w store written) (allowed :
    (StorageCall.save data).Allowed fs w) (saves : fs.saveLocked w.disk data = some program) :
    Shown fs ({ w.note (.save data) with disk := w.disk.run program },
    store.save data.toCheckpointData) := by
  obtain ⟨fresh, later⟩ := allowed
  have new : ∀ old ∈ written, old.id ≠ data.id :=
    fun old inside same => fresh (same ▸ (refined.used old inside).1)
  have before : ∀ old ∈ written, old.timestamp < data.timestamp := by
    intro old inside
    obtain ⟨t, now, early⟩ := (refined.used old inside).2
    exact lt_of_le_of_lt early (later t now)
  have ordered :=
    pairwise_append.2 ⟨refined.holds.ordered, pairwise_singleton _ data, fun old inside last here =>
    mem_singleton.1 here ▸ before old inside⟩
  refine ⟨written ++ [data],
    holds_saved ordered (fun old stored _ => refined.holds.within old stored)
    (fun _ old is => ?_) saves, ?_, ?_, fun old inside => ?_,
      FileStorage.length_completed_le_of_saveLocked saves⟩
  · obtain ⟨stored, names⟩ := refined.holds.held .latestCompleted old is
    exact ⟨stored, new old (refined.holds.within old stored), names⟩
  · rw [refined.same, map_append, Storage.save, filter_eq_self.2]
    · rfl
    · simpa using new
  · rw [map_append, nodup_append]
    exact ⟨refined.distinct, by simp, by simpa using new⟩
  · rcases mem_append.1 inside with old | here
    · exact ⟨mem_cons_of_mem _ (refined.used _ old).1, _, rfl, (before _ old).le⟩
    · rw [mem_singleton.1 here]
      exact ⟨mem_cons_self, _, rfl, le_rfl⟩

theorem Refined.promote (refined : Refined fs w store written)
    (promotes : StorageCall.program fs w.disk .promote = some program) :
    Shown fs ({ w with disk := w.disk.run program }, store.follow (.call .promote)) := by
  obtain ⟨data, loaded, updates⟩ := bind_eq_some_iff.1 promotes
  obtain ⟨found, specific, saves⟩ := bind_eq_some_iff.1 updates
  obtain ⟨front, rfl⟩ := getLast?_eq_some_iff.1 (refined.load ▸ loaded)
  have stored := (refined.holds.held .latest data (named_latest.trans (by simp))).1
  obtain rfl :
    data = found := some.inj ((Disk.loadSpecific_eq_some.2 ⟨stored, rfl⟩).symm.trans specific)
  obtain ⟨before, -, earlier⟩ := pairwise_append.1 refined.holds.ordered
  have apart := refined.distinct
  rw [map_append, nodup_append] at apart
  have ids : ∀ old ∈ front, old.id ≠ data.id :=
    fun old inside => apart.2.2 _ (mem_map_of_mem inside) _ mem_cons_self
  have ordered :=
    pairwise_append.2 ⟨before, pairwise_singleton _ { data with status := .completed },
    fun old inside last here => mem_singleton.1 here ▸ earlier old inside data mem_cons_self⟩
  refine ⟨_, holds_saved ordered (fun old stored differs => ?_) nofun saves, ?_,
    by simpa using refined.distinct,
    fun old inside => ?_, FileStorage.length_completed_le_of_saveLocked saves⟩
  · rcases mem_append.1 (refined.holds.within old stored) with inside | here
    · exact inside
    · exact absurd (congrArg (·.id) (mem_singleton.1 here)) differs
  · have listed : store.load = some data.toCheckpointData := by simp [refined.same, Storage.load]
    have unique : (store.map CheckpointData.id).Nodup := by
      rw [refined.same, List.map_map]
      exact refined.distinct
    rw [Storage.follow, listed, bind_some,
      Storage.updateStatus_of_mem unique (Storage.mem_of_load listed), getD_some,
      Storage.save, refined.same, map_append, map_append, filter_append, filter_eq_self.2]
    · simp
    · simpa using ids
  · rcases mem_append.1 inside with old | here
    · exact refined.used _ (mem_append_left _ old)
    · rw [mem_singleton.1 here]
      exact refined.used data (mem_append_right _ mem_cons_self)

theorem Refined.step {event : StorageEvent π ν} (refined : Refined fs w store written)
    (smooth : Smooth fs (w, store) event) (moves : w.step fs event = some after) :
    Shown fs (after, store.follow event) := by
  cases event with
  | crash _ _ | crashReopen _ => exact smooth.elim
  | writeState id path =>
    obtain ⟨-, rfl⟩ := of_ite_some moves
    exact ⟨written, { refined with holds := { refined.holds with } }⟩
  | halt =>
    obtain ⟨-, rfl⟩ := of_ite_some moves
    exact ⟨written, { refined with }⟩
  | load name =>
    obtain ⟨-, rfl⟩ := of_ite_some moves
    rw [refined.holds.loadPointer name]
    exact ⟨written, { refined with }⟩
  | reopen =>
    obtain ⟨-, rfl⟩ := of_ite_none moves
    exact ⟨written, { refined with
      holds := (holds_robust.maintain refined.holds).ends
      retained := FileStorage.length_completed_le_of_maintain fs w.disk }⟩
  | call call =>
    obtain ⟨⟨-, allowed⟩, rfl⟩ := of_ite_some moves
    obtain ⟨program, runs⟩ := isSome_iff_exists.1 smooth
    rw [finished, runs, getD_some]
    cases call with
    | save data => exact refined.save allowed runs
    | promote => exact refined.promote runs

/-- As long as no call is interrupted, both ways to load return what the list holds, and no more
completed checkpoints are kept than configured. -/
theorem fileStorage_refines (fs : FileStorage π ν) {w : StorageWorld π ν} {store : Storage π ν}
    (reach : Reach (stepBoth fs) (Smooth fs) ({}, []) (w, store)) :
    (fs.load w.disk).map (·.toCheckpointData) = store.load ∧
      (fs.loadLatestCompleted w.disk).map (·.toCheckpointData) = store.loadLatestCompleted ∧
      (w.disk.records.filter fun data => data.completed).length ≤ fs.retainCompleted := by
  have inv : Shown fs (w, store) := by
    refine reach.invariant ?_ ?_
    · exact ⟨[], ⟨.nil, nofun, nofun⟩, rfl, .nil, nofun, Nat.zero_le _⟩
    · rintro ⟨w, store⟩ event _ ⟨written, refined⟩ smooth moves
      obtain ⟨next, goes, rfl⟩ := map_eq_some_iff.1 moves
      exact refined.step smooth goes
  obtain ⟨written, (refined : Refined fs w store written)⟩ := inv
  have completed : fs.loadLatestCompleted w.disk = named written .latestCompleted :=
    congrArg Prod.fst (refined.holds.loadPointer .latestCompleted)
  refine ⟨?_, ?_, refined.retained⟩
  · rw [refined.load, refined.same, Storage.load, getLast?_map]
  · rw [completed, refined.same, Storage.loadLatestCompleted, List.filter_map, getLast?_map]
    rfl

open FileStorage (keepOne plain)

instance (both : StorageWorld Unit Unit × Storage Unit Unit) (event : StorageEvent Unit Unit) :
    Decidable (Smooth keepOne both event) :=
  match event with
  | .call _ => instDecidableEqBool _ _
  | .crash .. | .crashReopen _ => instDecidableFalse
  | .writeState .. | .halt | .load _ | .reopen => instDecidableTrue

/-- Of two completed checkpoints the files keep one, and a third one is promoted. -/
theorem promoted_refines : ∃ (w : StorageWorld Unit Unit) (store : Storage Unit Unit),
    (keepOne.load w.disk).map (·.toCheckpointData) = store.load ∧
    (keepOne.loadLatestCompleted w.disk).map (·.toCheckpointData) = store.loadLatestCompleted ∧
    store.length = 3 ∧ store.load = some (plain 3 .completed).toCheckpointData ∧
    w.disk.records = [plain 3 .completed] := by
  obtain ⟨⟨w, store⟩, reach, facts⟩ :=
    Reach.exists_of_guarded (stepBoth keepOne) (Smooth keepOne) ({}, [])
    [.call (.save (plain 1 .completed)), .call (.save (plain 2 .completed)), .halt, .reopen,
      .call (.save (plain 3 .prepared)), .call .promote]
    (fun (w, store) => decide (store.length = 3 ∧
      store.load = some (plain 3 .completed).toCheckpointData ∧
      w.disk.records = [plain 3 .completed])) (by decide +kernel)
  obtain ⟨loads, completed, -⟩ := fileStorage_refines keepOne reach
  exact ⟨w, store, loads, completed, of_decide_eq_true facts⟩

end StorageWorld

end Weibo.Checkpoint
