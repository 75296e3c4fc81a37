import Weibo.Checkpoint.FileStorage
import Weibo.Lib.Transition

/-!
# Checkpoint files across crashes

Callers save checkpoints under new ids with later timestamps and promote what `Load` returns; a
crash may stop a call, or the reopening, between any two steps. What was loaded before is loaded
again or the interrupted call has taken effect, unless interrupted saves left newer completed
records than the one promoted.
-/

namespace Weibo.Checkpoint

open List Option Bool

open Transition (Reach of_ite_none of_ite_some)
open Durable (Throughout)
open CheckpointRecord (less_of_lt timestamp_le)
open Disk (mem_writeRecord)

variable {π ν : Type}

/-! ## Runs -/

inductive StorageCall (π ν : Type)
  | save (data : CheckpointRecord π ν)
  | promote

inductive StorageEvent (π ν : Type)
  | writeState (id : CheckpointID) (path : StatePath)
  | call (call : StorageCall π ν)
  | load (name : Pointer)
  | crash (call : StorageCall π ν) (steps : Nat)
  | halt
  | reopen
  | crashReopen (steps : Nat)

structure StorageWorld (π ν : Type) where
  disk : Disk π ν := {}
  opened : Bool := true
  used : List CheckpointID := []
  clock : Option Time := none

namespace StorageCall

variable (fs : FileStorage π ν)

def data (d : Disk π ν) : StorageCall π ν → Option (CheckpointRecord π ν)
  | .save data => some data
  | .promote => (fs.load d).map fun data => { data with status := .completed }

def program (d : Disk π ν) : StorageCall π ν → Option (List (FileStep π ν))
  | .save data => fs.saveLocked d data
  | .promote => (fs.load d).bind fun data => fs.updateStatus d data.id .completed

def Allowed (w : StorageWorld π ν) : StorageCall π ν → Prop
  | .save data => data.id ∉ w.used ∧ ∀ t ∈ w.clock, t < data.timestamp
  | .promote => (fs.load w.disk).isSome = true

instance (w : StorageWorld π ν) (call : StorageCall π ν) : Decidable (call.Allowed fs w) :=
  match call with
  | .save data => inferInstanceAs (Decidable (data.id ∉ w.used ∧ ∀ t ∈ w.clock, t < data.timestamp))
  | .promote => inferInstanceAs (Decidable ((fs.load w.disk).isSome = true))

/-- A promotion finds room among the completed checkpoints that are kept. -/
def Timely (d : Disk π ν) : StorageCall π ν → Prop
  | .save _ => True
  | .promote => ∀ data, fs.load d = some data → (d.rivals data).length < fs.retainCompleted

end StorageCall

namespace StorageWorld

variable (fs : FileStorage π ν)

def note (w : StorageWorld π ν) : StorageCall π ν → StorageWorld π ν
  | .save data => { w with used := data.id :: w.used, clock := some data.timestamp }
  | .promote => w

def interrupted (d : Disk π ν) (call : StorageCall π ν) (steps : Nat) : Disk π ν :=
  d.run (((call.program fs d).getD []).take steps)

def finished (d : Disk π ν) (call : StorageCall π ν) : Disk π ν :=
  d.run ((call.program fs d).getD [])

def step (w : StorageWorld π ν) : StorageEvent π ν → Option (StorageWorld π ν)
  | .writeState id path =>
    if w.opened then some { w with disk := w.disk.apply (.writeState id path) } else none
  | .call call =>
    if w.opened ∧ call.Allowed fs w then some { w.note call with disk := finished fs w.disk call }
    else none
  | .load name =>
    if w.opened then
      some { w with disk := w.disk.run (fs.loadPointer w.disk name (name = .latestCompleted)).2 }
    else none
  | .crash call steps =>
    if w.opened ∧ call.Allowed fs w then
      some { w.note call with disk := interrupted fs w.disk call steps, opened := false }
    else none
  | .halt => if w.opened then some { w with opened := false } else none
  | .reopen =>
    if w.opened then none else
      some { w with disk := w.disk.run (fs.maintain w.disk), opened := true }
  | .crashReopen steps =>
    if w.opened then none else some { w with disk := w.disk.run ((fs.maintain w.disk).take steps) }

def Timely (w : StorageWorld π ν) : StorageEvent π ν → Prop
  | .call call => call.Timely fs w.disk
  | .crash call _ => call.Timely fs w.disk
  | _ => True

end StorageWorld

/-! ## Sound directories -/

namespace FileStorage

variable {fs : FileStorage π ν} {d after : Disk π ν} {used : List CheckpointID} {clock :
    Option Time}
  {gone : CheckpointRecord π ν → Prop} {data : CheckpointRecord π ν}

structure Sound (used : List CheckpointID) (clock : Option Time) (d : Disk π ν) : Prop where
  used : ∀ data ∈ d.records, data.id ∈ used
  past : ∀ data ∈ d.records, ∃ t ∈ clock, data.timestamp ≤ t
  apart : ∀ a ∈ d.records, ∀ b ∈ d.records, a.timestamp = b.timestamp → a = b
  present : ∀ data ∈ d.records, d.Present data

theorem Sound.shrinks (sound : Sound used clock d) (shrinks : Shrinks gone d after) :
    Sound used clock after where
  used data mem := sound.used data (shrinks.subset data mem)
  past data mem := sound.past data (shrinks.subset data mem)
  apart a first b second := sound.apart a (shrinks.subset a first) b (shrinks.subset b second)
  present data mem := shrinks.present mem (sound.present data (shrinks.subset data mem))

theorem Sound.writePointer (sound : Sound used clock d) (name : Pointer) (id : CheckpointID) :
    Sound used clock (d.apply (.writePointer name id)) :=
  ⟨sound.used, sound.past, sound.apart, sound.present⟩

theorem Sound.writeState (sound : Sound used clock d) (id : CheckpointID) (path : StatePath) :
    Sound used clock (d.apply (.writeState id path)) := by
  refine { sound with present := fun data mem owner owned => ?_ }
  obtain ⟨entry, inside, same, below⟩ := sound.present data mem owner owned
  exact ⟨entry, mem_cons_of_mem _ inside, same, below⟩

theorem robust_sound (fs : FileStorage π ν) : fs.Robust (Sound used clock) :=
  ⟨fun sound shrinks _ => sound.shrinks shrinks, fun sound _ => sound.writePointer _ _⟩

/-- The checkpoint that `Load` returns. -/
structure Latest (d : Disk π ν) (data : CheckpointRecord π ν) : Prop where
  stored : data ∈ d.records
  chosen : d.pointer .latest = some data.id ∨
    (∀ other ∈ d.records, d.pointer .latest ≠ some other.id) ∧
      ∀ other ∈ d.records, other.timestamp ≤ data.timestamp

theorem latest_of_load (loaded : fs.load d = some data) : Latest d data := by
  have loads := fs.loads d .latest false
  rw [← Prod.eta (fs.loadPointer d .latest false)] at loads
  rw [load] at loaded
  rw [loaded] at loads
  generalize (fs.loadPointer d .latest false).2 = steps at loads
  cases loads with
  | pointed stored use names => exact ⟨stored, .inl names⟩
  | scanned stored use dangles newest =>
    refine ⟨stored, .inr ⟨fun other mem names => ?_, fun other mem => ?_⟩⟩
    · exact Bool.noConfusion (dangles other mem names)
    · exact timestamp_le (newest other mem rfl)

theorem Latest.unique (sound : Sound used clock d) {other : CheckpointRecord π ν}
    (first : Latest d data) (second : Latest d other) : data = other := by
  rcases first.chosen with names | ⟨dangles, newest⟩
  · rcases second.chosen with mem' | ⟨dangles, newest⟩
    · exact d.eq_of_id first.stored second.stored (some.inj (names.symm.trans mem'))
    · exact absurd names (dangles data first.stored)
  · rcases second.chosen with names | ⟨-, highest⟩
    · exact absurd names (dangles other second.stored)
    · have same := le_antisymm (highest data first.stored) (newest other second.stored)
      exact sound.apart data first.stored other second.stored same

theorem load_eq_none : fs.load d = none ↔ d.records = [] := by
  have loads := fs.loads d .latest false
  rw [load]
  generalize fs.loadPointer d .latest false = result at loads
  cases loads with
  | pointed stored use names => exact iff_of_false (some_ne_none _) (ne_nil_of_mem stored)
  | scanned stored use dangles newest =>
    exact iff_of_false (some_ne_none _) (ne_nil_of_mem stored)
  | nothing empty =>
    refine iff_of_true rfl (eq_nil_iff_forall_not_mem.2 fun other mem => ?_)
    exact Bool.noConfusion (empty other mem)

theorem load_of_latest (sound : Sound used clock d)
    (latest : Latest d data) : fs.load d = some data := by
  cases loaded : fs.load d with
  | some other => rw [(latest_of_load loaded).unique sound latest]
  | none => exact absurd (load_eq_none.1 loaded) (ne_nil_of_mem latest.stored)

/-! ## What a crash leaves to load -/

structure Calm (fs : FileStorage π ν) (loaded : Option (CheckpointRecord π ν)) (d : Disk π ν) :
    Prop where
  load : fs.load d = loaded
  few : (d.records.filter fun data => data.completed).length ≤ fs.retainCompleted

structure Written (fs : FileStorage π ν) (loaded : Option (CheckpointRecord π ν))
    (data : CheckpointRecord π ν) (d : Disk π ν) : Prop where
  stored : data ∈ d.records
  few : data.completed = true → (d.rivals data).length < fs.retainCompleted
  place : ((∀ other ∈ d.records, other.timestamp ≤ data.timestamp) ∧
      ∀ other ∈ d.records, d.pointer .latest = some other.id → other = data ∨ loaded = some other) ∨
    d.pointer .latest = some data.id

variable {loaded : Option (CheckpointRecord π ν)}

theorem Written.load (sound : Sound used clock d)
    (written : fs.Written loaded data d) : fs.load d = some data ∨ fs.load d = loaded := by
  rcases written.place with ⟨newest, names⟩ | names
  · by_cases dangles : ∀ other ∈ d.records, d.pointer .latest ≠ some other.id
    · exact .inl (load_of_latest sound ⟨written.stored, .inr ⟨dangles, newest⟩⟩)
    · push Not at dangles
      obtain ⟨other, mem, named⟩ := dangles
      have here : fs.load d = some other := load_of_latest sound ⟨mem, .inl named⟩
      rcases names other mem named with rfl | before
      · exact .inl here
      · exact .inr (here.trans before.symm)
  · exact .inl (load_of_latest sound ⟨written.stored, .inl names⟩)

theorem robust_calm (fs : FileStorage π ν) (loaded : Option (CheckpointRecord π ν)) :
    fs.Robust fun d => Sound used clock d ∧ fs.Calm loaded d where
  shrink := by
    rintro gone d after ⟨sound, calm⟩ shrinks victim
    have next := sound.shrinks shrinks
    have few := (shrinks.length_filter_le fun data => data.completed).trans calm.few
    have kept : ∀ data ∈ d.records, data ∈ after.records := by
      intro data mem
      refine shrinks.kept data mem fun dead => ?_
      have none := victim data dead
      rw [victims_eq_nil calm.few] at none
      cases none
    refine ⟨next, ?_, few⟩
    rw [← calm.load]
    cases before : fs.load d with
    | none =>
      rw [load_eq_none] at before ⊢
      refine eq_nil_iff_forall_not_mem.2 fun data mem => ?_
      have stored := shrinks.subset data mem
      simp [before] at stored
    | some data =>
      obtain ⟨stored, chosen⟩ := latest_of_load before
      refine load_of_latest next ⟨kept data stored, ?_⟩
      rw [shrinks.pointer]
      refine chosen.imp_right fun ⟨dangles, newest⟩ => ⟨fun other mem => ?_, fun other mem => ?_⟩
      · exact dangles other (shrinks.subset other mem)
      · exact newest other (shrinks.subset other mem)
  repair := by
    rintro d name data ⟨sound, calm⟩ loads
    have next := sound.writePointer name data.id
    refine ⟨next, ?_, calm.few⟩
    rw [← calm.load]
    cases loads with
    | scanned stored use dangles newest =>
      cases name with
      | latest =>
        have latest : Latest d data := by
          refine ⟨stored, .inr ⟨fun other mem names => ?_, fun other mem => ?_⟩⟩
          · exact Bool.noConfusion (dangles other mem names)
          · exact timestamp_le (newest other mem rfl)
        rw [load_of_latest sound latest]
        exact load_of_latest next ⟨stored, .inl (d.pointer_self ..)⟩
      | latestCompleted =>
        cases before : fs.load d with
        | none =>
          rw [load_eq_none] at before ⊢
          exact before
        | some found =>
          obtain ⟨held, chosen⟩ := latest_of_load before
          refine load_of_latest next ⟨held, ?_⟩
          rw [d.pointer_of_ne (by decide)]
          exact chosen

theorem robust_written (fs : FileStorage π ν) (loaded : Option (CheckpointRecord π ν))
    (data : CheckpointRecord π ν) :
    fs.Robust fun d => Sound used clock d ∧ fs.Written loaded data d where
  shrink := by
    rintro gone d after ⟨sound, written⟩ shrinks victim
    have alive : ¬gone data := fun dead => not_victim written.few (victim data dead)
    refine ⟨sound.shrinks shrinks, shrinks.kept data written.stored alive, fun done => ?_, ?_⟩
    · exact lt_of_le_of_lt (shrinks.length_filter_le _) (written.few done)
    · rw [shrinks.pointer]
      refine written.place.imp_left fun ⟨newest, names⟩ =>
        ⟨fun other mem => ?_, fun other mem => ?_⟩
      · exact newest other (shrinks.subset other mem)
      · exact names other (shrinks.subset other mem)
  repair := by
    rintro d name found ⟨sound, written⟩ loads
    refine ⟨sound.writePointer name found.id, written.stored, written.few, ?_⟩
    cases loads with
    | scanned stored use dangles newest =>
      cases name with
      | latest =>
        -- The pointer file named nothing, so the written checkpoint is the newest.
        rcases written.place with ⟨highest, -⟩ | names
        · have later := timestamp_le (newest data written.stored rfl)
          have same := le_antisymm (highest found stored) later
          rw [sound.apart found stored data written.stored same]
          exact .inr (d.pointer_self ..)
        · exact Bool.noConfusion (dangles data written.stored names)
      | latestCompleted =>
        rw [d.pointer_of_ne (by decide)]
        exact written.place

/-! ## What stays completed -/

structure Floor (bound : Option Time) (d : Disk π ν) : Prop where
  done : ∃ data ∈ d.records, data.completed = true ∧ ∀ t ∈ bound, t ≤ data.timestamp
  pointed : ∀ name, ∀ data ∈ d.records, d.pointer name = some data.id →
    usable (name = .latestCompleted) data = true → ∀ t ∈ bound, t ≤ data.timestamp

theorem exists_newest (fs : FileStorage π ν) (stored : data ∈ d.records)
    (done : data.completed = true) :
    ∃ newest ∈ d.records, newest.completed = true ∧
      ∀ other ∈ d.records, other.completed = true → newest.less other = false := by
  cases found : (fs.scan d).reverse.find? (usable true) with
  | some newest =>
    obtain ⟨mem, use, highest⟩ := newest_of_scan found
    exact ⟨newest, mem, use, highest⟩
  | none =>
    have unused := List.find?_eq_none.1 found data
    rw [mem_reverse, scan, (fs.sortSlice.perm d.records).mem_iff] at unused
    exact absurd done (unused stored)

theorem rivals_eq_nil (apart : ∀ other ∈ d.records, other.timestamp = data.timestamp → other = data)
    (newest : ∀ other ∈ d.records, other.completed = true → data.less other = false) :
    d.rivals data = [] := by
  refine filter_eq_nil_iff.2 fun other mem rival => ?_
  simp only [and_eq_true, decide_eq_true_eq, not_eq_true'] at rival
  obtain ⟨⟨done, differs⟩, after⟩ := rival
  have older := timestamp_le (newest other mem done)
  have same := le_antisymm older (timestamp_le after)
  exact differs (by rw [apart other mem same])

variable {bound : Option Time}

theorem Floor.loadLatestCompleted (sound : Sound used clock d)
    (floor : Floor bound d) : ∃ data, fs.loadLatestCompleted d = some data ∧ data ∈ d.records ∧
      data.completed = true ∧ d.Present data ∧ ∀ t ∈ bound, t ≤ data.timestamp := by
  obtain ⟨old, held, done, late⟩ := floor.done
  have loads := fs.loads d .latestCompleted true
  rw [FileStorage.loadLatestCompleted]
  generalize fs.loadPointer d .latestCompleted true = result at loads
  cases loads with
  | @pointed data stored use names =>
    exact ⟨data, rfl, stored, use, sound.present data stored,
      floor.pointed .latestCompleted data stored names use⟩
  | @scanned data stored use dangles newest =>
    refine ⟨data, rfl, stored, use, sound.present data stored, fun t mem => (late t mem).trans ?_⟩
    exact timestamp_le (newest old held done)
  | nothing empty =>
    have unused := empty old held
    simp [usable, done] at unused

theorem Floor.writePointer (floor : Floor bound d) (stored : data ∈ d.records)
    (late : ∀ t ∈ bound, t ≤ data.timestamp) (name : Pointer) :
    Floor bound (d.apply (.writePointer name data.id)) := by
  refine ⟨floor.done, fun other found mem names use => ?_⟩
  by_cases same : other = name
  · subst same
    rw [d.pointer_self] at names
    obtain rfl := d.eq_of_id stored mem (some.inj names)
    exact late
  · rw [d.pointer_of_ne same] at names
    exact floor.pointed other found mem names use

theorem robust_floor (fs : FileStorage π ν) (bound : Option Time) :
    fs.Robust fun d => Sound used clock d ∧ Floor bound d where
  shrink := by
    rintro gone d after ⟨sound, floor⟩ shrinks victim
    obtain ⟨old, held, done, late⟩ := floor.done
    obtain ⟨newest, stored, complete, highest⟩ := fs.exists_newest held done
    have alone : d.rivals newest = [] :=
      rivals_eq_nil (fun other mem same => sound.apart other mem newest stored same) highest
    have alive : ¬gone newest := by
      refine fun dead => not_victim (fun _ => ?_) (victim newest dead)
      rw [alone]
      exact fs.retains
    refine ⟨sound.shrinks shrinks, ⟨newest, shrinks.kept newest stored alive, complete, ?_⟩, ?_⟩
    · exact fun t mem => (late t mem).trans (timestamp_le (highest old held done))
    · intro name data mem names
      rw [shrinks.pointer] at names
      exact floor.pointed name data (shrinks.subset data mem) names
  repair := by
    rintro d name found ⟨sound, floor⟩ loads
    obtain ⟨old, held, done, late⟩ := floor.done
    refine ⟨sound.writePointer name found.id, ?_⟩
    cases loads with
    | scanned stored use dangles newest =>
      have usableOld : usable (name = .latestCompleted) old = true := by simp [usable, done]
      have after := timestamp_le (newest old held usableOld)
      exact floor.writePointer stored (fun t mem => (late t mem).trans after) name

/-! ## What a call writes -/

structure Writes (fs : FileStorage π ν) (d : Disk π ν) (data : CheckpointRecord π ν) : Prop where
  present : d.Present data
  apart : ∀ other ∈ d.records, other.id ≠ data.id → other.timestamp ≠ data.timestamp
  replaces : ∀ other ∈ d.records, other.id = data.id →
    data.completed = true ∧ other.timestamp = data.timestamp
  place : ((∀ other ∈ d.records, other.timestamp ≤ data.timestamp) ∧
      ∀ other ∈ d.records, d.pointer .latest = some other.id → other.id ≠ data.id →
        fs.load d = some other) ∨ d.pointer .latest = some data.id

theorem throughout_writes (holds inner : Disk π ν → Prop) (initial : holds d)
    (weaken : ∀ t, inner t → holds t) (recorded : inner (d.apply (.writeRecord data))) (pointed :
    ∀ t name, data ∈ t.records → inner t → inner (t.apply (.writePointer name data.id))) :
    Throughout Disk.apply holds d (writes data) ∧ inner (d.run (writes data)) := by
  have stored : data ∈ (d.apply (.writeRecord data)).records := mem_writeRecord.2 (.inr rfl)
  have latest := pointed _ .latest stored recorded
  by_cases done : data.completed = true
  · have both := pointed ((d.apply (.writeRecord data)).apply (.writePointer .latest data.id))
      .latestCompleted stored latest
    simp only [writes, if_pos done]
    exact ⟨⟨initial, weaken _ recorded, weaken _ latest, weaken _ both⟩, both⟩
  · simp only [writes, if_neg done]
    exact ⟨⟨initial, weaken _ recorded, weaken _ latest⟩, latest⟩

namespace Writes

variable (writes : fs.Writes d data)

include writes

theorem sound (sound : Sound used clock d) (id : data.id ∈ used)
    (past : ∃ t ∈ clock, data.timestamp ≤ t) : Sound used clock (d.apply (.writeRecord data)) where
  used other mem := by
    rcases mem_writeRecord.1 mem with ⟨stored, -⟩ | rfl
    · exact sound.used other stored
    · exact id
  past other mem := by
    rcases mem_writeRecord.1 mem with ⟨stored, -⟩ | rfl
    · exact sound.past other stored
    · exact past
  apart a first b second same := by
    rcases mem_writeRecord.1 first with ⟨stored, differs⟩ | rfl <;>
      rcases mem_writeRecord.1 second with ⟨held, unlike⟩ | rfl
    · exact sound.apart a stored b held same
    · exact absurd same (writes.apart a stored differs)
    · exact absurd same.symm (writes.apart b held unlike)
    · rfl
  present other mem := by
    rcases mem_writeRecord.1 mem with ⟨stored, -⟩ | rfl
    · exact sound.present other stored
    · exact writes.present

theorem written (few : data.completed = true → (d.rivals data).length < fs.retainCompleted) :
    fs.Written (fs.load d) data (d.apply (.writeRecord data)) := by
  refine ⟨mem_writeRecord.2 (.inr rfl), fun done => d.rivals_writeRecord data ▸ few done, ?_⟩
  refine writes.place.imp_left fun ⟨newest, loaded⟩ =>
    ⟨fun other mem => ?_, fun other mem names => ?_⟩
  · rcases mem_writeRecord.1 mem with ⟨stored, -⟩ | rfl
    · exact newest other stored
    · exact le_rfl
  · rcases mem_writeRecord.1 mem with ⟨stored, differs⟩ | rfl
    · exact .inr (loaded other stored names differs)
    · exact .inl rfl

theorem floor {bound : Option Time} (floor : Floor bound d)
    (late : ∀ t ∈ bound, t ≤ data.timestamp) : Floor bound (d.apply (.writeRecord data)) where
  done := by
    obtain ⟨old, held, done, after⟩ := floor.done
    by_cases same : old.id = data.id
    · exact ⟨data, mem_writeRecord.2 (.inr rfl), (writes.replaces old held same).1, late⟩
    · exact ⟨old, mem_writeRecord.2 (.inl ⟨held, same⟩), done, after⟩
  pointed name other mem names use := by
    rcases mem_writeRecord.1 mem with ⟨stored, -⟩ | rfl
    · exact floor.pointed name other stored names use
    · exact late

end Writes

theorem Written.writePointer (written : fs.Written loaded data d) (name : Pointer) :
    fs.Written loaded data (d.apply (.writePointer name data.id)) := by
  refine ⟨written.stored, written.few, ?_⟩
  cases name with
  | latest => exact .inr (d.pointer_self ..)
  | latestCompleted =>
    rw [d.pointer_of_ne (by decide)]
    exact written.place

theorem Writes.throughout_sound (writes : fs.Writes d data) (sound : Sound used clock d)
    (id : data.id ∈ used) (past : ∃ t ∈ clock, data.timestamp ≤ t) {program : List (FileStep π ν)}
    (saves : fs.saveLocked d data = some program) : Throughout Disk.apply
    (Sound used clock) d program := by
  have written := throughout_writes (Sound used clock) (Sound used clock) sound
    (fun _ sound => sound) (writes.sound sound id past)
    fun _ name _ sound => sound.writePointer name data.id
  exact fs.robust_sound.saveLocked saves written.1

theorem Writes.throughout_floor (writes : fs.Writes d data)
    (sound : Sound used clock d) (floor : Floor bound d) (id : data.id ∈ used)
    (past : ∃ t ∈ clock, data.timestamp ≤ t) (late : ∀ t ∈ bound, t ≤ data.timestamp)
    {program : List (FileStep π ν)} (saves : fs.saveLocked d data = some program) :
    Throughout Disk.apply (fun t => Sound used clock t ∧ Floor bound t) d program := by
  have written := throughout_writes (fun t => Sound used clock t ∧ Floor bound t)
    (fun t => Sound used clock t ∧ Floor bound t) ⟨sound, floor⟩ (fun _ both => both)
    ⟨writes.sound sound id past, writes.floor floor late⟩ fun _ name stored both =>
      ⟨both.1.writePointer name data.id, both.2.writePointer stored late name⟩
  exact (fs.robust_floor bound).saveLocked saves written.1

def Outcome (fs : FileStorage π ν) (used : List CheckpointID) (clock : Option Time)
    (loaded : Option (CheckpointRecord π ν)) (data : CheckpointRecord π ν) (d : Disk π ν) : Prop :=
  Sound used clock d ∧ (fs.Calm loaded d ∨ fs.Written loaded data d)

theorem robust_outcome (fs : FileStorage π ν) (loaded : Option (CheckpointRecord π ν))
    (data : CheckpointRecord π ν) : fs.Robust (fs.Outcome used clock loaded data) where
  shrink := by
    rintro gone d after ⟨sound, calm | written⟩ shrinks victim
    · have next := (fs.robust_calm loaded).shrink ⟨sound, calm⟩ shrinks victim
      exact ⟨next.1, .inl next.2⟩
    · have next := (fs.robust_written loaded data).shrink ⟨sound, written⟩ shrinks victim
      exact ⟨next.1, .inr next.2⟩
  repair := by
    rintro d name found ⟨sound, calm | written⟩ loads
    · have next := (fs.robust_calm loaded).repair ⟨sound, calm⟩ loads
      exact ⟨next.1, .inl next.2⟩
    · have next := (fs.robust_written loaded data).repair ⟨sound, written⟩ loads
      exact ⟨next.1, .inr next.2⟩

theorem Outcome.load (outcome : fs.Outcome used clock loaded data d) : fs.load d = loaded ∨
    fs.load d = some data := by
  obtain ⟨sound, calm | written⟩ := outcome
  · exact .inl calm.load
  · exact (written.load sound).symm

section Call

variable (writes : fs.Writes d data) (sound : Sound used clock d) (id : data.id ∈ used)
  (past : ∃ t ∈ clock, data.timestamp ≤ t)
  (few : data.completed = true → (d.rivals data).length < fs.retainCompleted)
  {program : List (FileStep π ν)} (saves : fs.saveLocked d data = some program)

include writes sound id past few saves

theorem Writes.throughout_outcome (calm : fs.Calm (fs.load d) d) :
    Throughout Disk.apply (fs.Outcome used clock (fs.load d) data) d program := by
  have written := throughout_writes (fs.Outcome used clock (fs.load d) data)
    (fun t => Sound used clock t ∧ fs.Written (fs.load d) data t) ⟨sound, .inl calm⟩
    (fun _ both => ⟨both.1, .inr both.2⟩)
    ⟨writes.sound sound id past, writes.written few⟩
    fun _ name _ both => ⟨both.1.writePointer name data.id, both.2.writePointer name⟩
  exact (fs.robust_outcome (fs.load d) data).saveLocked saves written.1

theorem Writes.load_finished : fs.load (d.run program) = some data := by
  have written := throughout_writes (fun _ => True)
    (fun t => Sound used clock t ∧ fs.Written (fs.load d) data t) trivial (fun _ _ => trivial)
    ⟨writes.sound sound id past, writes.written few⟩
    fun _ name _ both => ⟨both.1.writePointer name data.id, both.2.writePointer name⟩
  have named : (d.run (FileStorage.writes data)).pointer .latest = some data.id :=
    pointer_writes d fun never => Pointer.noConfusion never
  have alone : fs.Written (some data) data (d.run (FileStorage.writes data)) :=
    ⟨written.2.2.stored, written.2.2.few, .inr named⟩
  have kept := ((fs.robust_written (some data) data).retention ⟨written.2.1, alone⟩).ends
  simp only [FileStorage.saveLocked, if_pos writes.present] at saves
  cases saves
  rw [Disk.run, Durable.run_append]
  exact (kept.2.load kept.1).elim (fun same => same) fun same => same

omit few

theorem Writes.floor_finished (done : data.completed = true) :
    Floor (some data.timestamp) (d.run program) := by
  have written := throughout_writes (fun _ => True)
    (fun t => Sound used clock t ∧ data ∈ t.records) trivial (fun _ _ => trivial)
    ⟨writes.sound sound id past, mem_writeRecord.2 (.inr rfl)⟩
    fun _ name _ both => ⟨both.1.writePointer name data.id, both.2⟩
  have exact : ∀ t ∈ some data.timestamp, t ≤ data.timestamp :=
    fun t mem => le_of_eq (some.inj mem).symm
  have floor : Floor (some data.timestamp) (d.run (FileStorage.writes data)) := by
    refine ⟨⟨data, written.2.2, done, exact⟩, fun name other mem names _ => ?_⟩
    rw [pointer_writes d fun _ => done] at names
    rw [← Disk.eq_of_id _ written.2.2 mem (some.inj names)]
    exact exact
  simp only [FileStorage.saveLocked, if_pos writes.present] at saves
  cases saves
  rw [Disk.run, Durable.run_append]
  exact ((fs.robust_floor _).retention ⟨written.2.1, floor⟩).ends.2

end Call

end FileStorage

/-! ## Every run -/

namespace StorageWorld

variable {fs : FileStorage π ν} {w v : StorageWorld π ν} {call : StorageCall π ν}
  {data : CheckpointRecord π ν}

structure Inv (fs : FileStorage π ν) (w : StorageWorld π ν) : Prop where
  sound : FileStorage.Sound w.used w.clock w.disk
  settled : w.opened = true →
    (w.disk.records.filter fun data => data.completed).length ≤ fs.retainCompleted

theorem Inv.note (inv : w.Inv fs) (allowed : call.Allowed fs w) :
    FileStorage.Sound (w.note call).used (w.note call).clock w.disk := by
  cases call with
  | save data =>
    refine ⟨fun other mem => .tail _ (inv.sound.used other mem), fun other mem => ?_,
      inv.sound.apart, inv.sound.present⟩
    obtain ⟨t, last, older⟩ := inv.sound.past other mem
    exact ⟨data.timestamp, rfl, older.trans (le_of_lt (allowed.2 t last))⟩
  | promote => exact inv.sound

structure Calls (fs : FileStorage π ν) (w : StorageWorld π ν) (call : StorageCall π ν)
    (data : CheckpointRecord π ν) : Prop where
  record : call.data fs w.disk = some data
  writes : fs.Writes w.disk data
  id : data.id ∈ (w.note call).used
  past : ∃ t ∈ (w.note call).clock, data.timestamp ≤ t
  few : call.Timely fs w.disk → data.completed = true →
    (w.disk.rivals data).length < fs.retainCompleted
  late : ∀ bound, FileStorage.Floor bound w.disk → ∀ t ∈ bound, t ≤ data.timestamp

theorem Inv.calls (inv : w.Inv fs) (allowed : call.Allowed fs w) {program : List (FileStep π ν)}
    (runs : call.program fs w.disk = some program) :
    ∃ data, Calls fs w call data ∧ fs.saveLocked w.disk data = some program := by
  cases call with
  | save data =>
    have older : ∀ other ∈ w.disk.records, other.timestamp < data.timestamp := by
      intro other mem
      obtain ⟨t, last, before⟩ := inv.sound.past other mem
      exact lt_of_le_of_lt before (allowed.2 t last)
    have alone : w.disk.rivals data = [] := by
      refine filter_eq_nil_iff.2 fun other mem rival => ?_
      have before := less_of_lt (older other mem)
      simp [before] at rival
    have present : w.disk.Present data := by
      by_contra absent
      simp [StorageCall.program, FileStorage.saveLocked, absent] at runs
    refine ⟨data, ⟨rfl, ⟨present, fun other mem _ => ne_of_lt (older other mem), ?_, .inl ⟨?_, ?_⟩⟩,
      mem_cons_self, ⟨_, rfl, le_rfl⟩, fun _ _ => ?_, fun bound floor t mem => ?_⟩, runs⟩
    · exact fun other mem same => absurd (same ▸ inv.sound.used other mem) allowed.1
    · exact fun other mem => le_of_lt (older other mem)
    · exact fun other mem names _ => FileStorage.load_of_latest inv.sound ⟨mem, .inl names⟩
    · rw [alone]
      exact fs.retains
    · obtain ⟨old, held, -, after⟩ := floor.done
      exact (after t mem).trans (le_of_lt (older old held))
  | promote =>
    obtain ⟨old, loaded, updates⟩ := bind_eq_some_iff.1 runs
    obtain ⟨stored, chosen⟩ := FileStorage.latest_of_load loaded
    have found : w.disk.loadSpecific old.id = some old := Disk.loadSpecific_eq_some.2 ⟨stored, rfl⟩
    rw [FileStorage.updateStatus, found, bind_some] at updates
    refine ⟨{ old with status := .completed }, ⟨by rw [StorageCall.data, loaded, map_some],
      ⟨inv.sound.present old stored, ?_, ?_, ?_⟩, inv.sound.used old stored,
      inv.sound.past old stored, fun timely _ => timely old loaded, fun bound floor t mem => ?_⟩,
      updates⟩
    · intro other mem differs same
      exact differs (by rw [inv.sound.apart other mem old stored same])
    · intro other mem same
      exact ⟨rfl, by rw [w.disk.eq_of_id mem stored same]⟩
    · rcases chosen with names | ⟨dangles, newest⟩
      · exact .inr names
      · exact .inl ⟨newest, fun other mem names => absurd names (dangles other mem)⟩
    · rcases chosen with names | ⟨-, newest⟩
      · exact floor.pointed .latest old stored names rfl t mem
      · obtain ⟨first, held, -, after⟩ := floor.done
        exact (after t mem).trans (newest first held)

theorem Inv.interrupted (inv : w.Inv fs) (allowed : call.Allowed fs w)
    (steps : Nat) : FileStorage.Sound (w.note call).used (w.note call).clock
    (interrupted fs w.disk call steps) := by
  have sound := inv.note allowed
  cases runs : call.program fs w.disk with
  | none =>
    rw [StorageWorld.interrupted, runs, getD_none, take_nil]
    exact sound
  | some program =>
    obtain ⟨data, calls, saves⟩ := inv.calls allowed runs
    rw [StorageWorld.interrupted, runs]
    exact (calls.writes.throughout_sound sound calls.id calls.past saves).crash steps

theorem finished_eq (fs : FileStorage π ν) (d : Disk π ν) (call : StorageCall π ν) :
    finished fs d call = interrupted fs d call ((call.program fs d).getD []).length := by
  rw [finished, interrupted, take_length]

theorem Inv.finished_settled (inv : w.Inv fs) (opened : w.opened = true)
    (allowed : call.Allowed fs w) : ((finished fs w.disk call).records.filter fun data =>
    data.completed).length ≤ fs.retainCompleted := by
  cases runs : call.program fs w.disk with
  | none =>
    rw [finished, runs]
    exact inv.settled opened
  | some program =>
    obtain ⟨data, -, saves⟩ := inv.calls allowed runs
    rw [finished, runs]
    exact FileStorage.length_completed_le_of_saveLocked saves

theorem Inv.step (inv : w.Inv fs) {event : StorageEvent π ν} (moves : w.step fs event = some v) :
    v.Inv fs := by
  cases event with
  | writeState id path =>
    obtain ⟨opened, rfl⟩ := of_ite_some moves
    exact ⟨inv.sound.writeState id path, inv.settled⟩
  | call call =>
    obtain ⟨⟨opened, allowed⟩, rfl⟩ := of_ite_some moves
    refine ⟨?_, fun _ => inv.finished_settled opened allowed⟩
    have sound := inv.interrupted allowed ((call.program fs w.disk).getD []).length
    rw [← finished_eq] at sound
    exact sound
  | load name =>
    obtain ⟨opened, rfl⟩ := of_ite_some moves
    refine ⟨(fs.robust_sound.load inv.sound name).ends, fun _ => ?_⟩
    have loads := fs.loads w.disk name (name = .latestCompleted)
    generalize fs.loadPointer w.disk name (name = .latestCompleted) = result at loads
    cases loads <;> exact inv.settled opened
  | crash call steps =>
    obtain ⟨⟨opened, allowed⟩, rfl⟩ := of_ite_some moves
    exact ⟨inv.interrupted allowed steps, fun opened => Bool.noConfusion opened⟩
  | halt =>
    obtain ⟨opened, rfl⟩ := of_ite_some moves
    exact ⟨inv.sound, fun opened => Bool.noConfusion opened⟩
  | reopen =>
    obtain ⟨closed, rfl⟩ := of_ite_none moves
    exact ⟨(fs.robust_sound.maintain inv.sound).ends, fun _ => fs.length_completed_le_of_maintain _⟩
  | crashReopen steps =>
    obtain ⟨closed, rfl⟩ := of_ite_none moves
    exact ⟨(fs.robust_sound.maintain inv.sound).crash steps, fun opened => absurd opened closed⟩

theorem Inv.floor (inv : w.Inv fs) {bound : Option Time} (floor : FileStorage.Floor bound w.disk)
    {event : StorageEvent π ν}
    (moves : w.step fs event = some v) : FileStorage.Floor bound v.disk := by
  have stopped : ∀ {call : StorageCall π ν}, call.Allowed fs w → ∀ steps,
      FileStorage.Floor bound (StorageWorld.interrupted fs w.disk call steps) := by
    intro call allowed steps
    cases runs : call.program fs w.disk with
    | none =>
      rw [StorageWorld.interrupted, runs, getD_none, take_nil]
      exact floor
    | some program =>
      obtain ⟨data, calls, saves⟩ := inv.calls allowed runs
      rw [StorageWorld.interrupted, runs]
      exact ((calls.writes.throughout_floor (inv.note allowed) floor calls.id calls.past
        (calls.late bound floor) saves).crash steps).2
  cases event with
  | writeState id path =>
    obtain ⟨opened, rfl⟩ := of_ite_some moves
    exact ⟨floor.done, floor.pointed⟩
  | call call =>
    obtain ⟨⟨opened, allowed⟩, rfl⟩ := of_ite_some moves
    have kept := stopped allowed ((call.program fs w.disk).getD []).length
    rw [← finished_eq] at kept
    exact kept
  | load name =>
    obtain ⟨opened, rfl⟩ := of_ite_some moves
    exact ((fs.robust_floor bound).load ⟨inv.sound, floor⟩ name).ends.2
  | crash call steps =>
    obtain ⟨⟨opened, allowed⟩, rfl⟩ := of_ite_some moves
    exact stopped allowed steps
  | halt =>
    obtain ⟨opened, rfl⟩ := of_ite_some moves
    exact floor
  | reopen =>
    obtain ⟨closed, rfl⟩ := of_ite_none moves
    exact ((fs.robust_floor bound).maintain ⟨inv.sound, floor⟩).ends.2
  | crashReopen steps =>
    obtain ⟨closed, rfl⟩ := of_ite_none moves
    exact (((fs.robust_floor bound).maintain ⟨inv.sound, floor⟩).crash steps).2

theorem inv_of_reach {ok : StorageWorld π ν → StorageEvent π ν → Prop} (inv : w.Inv fs)
    (reach : Reach (step fs) ok w v) : v.Inv fs := by
  induction reach with
  | refl => exact inv
  | tail event _ _ moves ih => exact ih.step moves

theorem floor_of_reach {ok : StorageWorld π ν → StorageEvent π ν → Prop} (inv : w.Inv fs)
    {bound : Option Time} (floor : FileStorage.Floor bound w.disk)
    (reach : Reach (step fs) ok w v) : FileStorage.Floor bound v.disk := by
  induction reach with
  | refl => exact floor
  | tail event before _ moves ih => exact (inv_of_reach inv before).floor ih moves

theorem inv_start (fs : FileStorage π ν) : Inv fs {} :=
  ⟨⟨fun _ mem => absurd mem not_mem_nil, fun _ mem => absurd mem not_mem_nil,
    fun _ mem => absurd mem not_mem_nil, fun _ mem => absurd mem not_mem_nil⟩,
    fun _ => Nat.zero_le _⟩

def reopened (fs : FileStorage π ν) : Disk π ν → List Nat → Disk π ν
  | d, [] => d.run (fs.maintain d)
  | d, steps :: attempts => reopened fs (d.run ((fs.maintain d).take steps)) attempts

theorem holds_reopened {holds : Disk π ν → Prop} (robust : fs.Robust holds) {d : Disk π ν}
    (initial : holds d) (attempts : List Nat) : holds (reopened fs d attempts) := by
  induction attempts generalizing d with
  | nil => exact (robust.maintain initial).ends
  | cons steps attempts ih => exact ih ((robust.maintain initial).crash steps)

theorem Inv.load_halted (inv : w.Inv fs) (opened : w.opened = true) (attempts : List Nat) :
    fs.load (reopened fs w.disk attempts) = fs.load w.disk :=
  (holds_reopened (fs.robust_calm (fs.load w.disk)) ⟨inv.sound, rfl,
    inv.settled opened⟩ attempts).2.load

theorem Inv.load_crashed (inv : w.Inv fs) (opened : w.opened = true) (allowed : call.Allowed fs w)
    (timely : call.Timely fs w.disk) (steps : Nat) (attempts : List Nat) :
    fs.load (reopened fs (StorageWorld.interrupted fs w.disk call steps) attempts) =
      fs.load w.disk ∨
      fs.load (reopened fs (StorageWorld.interrupted fs w.disk call steps) attempts) =
        call.data fs w.disk := by
  cases runs : call.program fs w.disk with
  | none =>
    rw [StorageWorld.interrupted, runs, getD_none, take_nil]
    exact .inl (inv.load_halted opened attempts)
  | some program =>
    obtain ⟨data, calls, saves⟩ := inv.calls allowed runs
    rw [StorageWorld.interrupted, runs, calls.record]
    have outcome := (calls.writes.throughout_outcome (inv.note allowed) calls.id calls.past
      (calls.few timely) saves ⟨rfl, inv.settled opened⟩).crash steps
    exact (holds_reopened (fs.robust_outcome (fs.load w.disk) data) outcome attempts).load

theorem Inv.load_finished (inv : w.Inv fs) (allowed : call.Allowed fs w)
    (timely : call.Timely fs w.disk) (succeeds : (call.program fs w.disk).isSome = true) :
    fs.load (finished fs w.disk call) = call.data fs w.disk := by
  obtain ⟨program, runs⟩ := isSome_iff_exists.1 succeeds
  obtain ⟨data, calls, saves⟩ := inv.calls allowed runs
  rw [finished, runs, calls.record]
  exact calls.writes.load_finished (inv.note allowed) calls.id calls.past (calls.few timely) saves

theorem Inv.floor_finished (inv : w.Inv fs) (allowed : call.Allowed fs w)
    (succeeds : (call.program fs w.disk).isSome = true) (writes : call.data fs w.disk = some data)
    (done : data.completed = true) : FileStorage.Floor (some data.timestamp)
    (finished fs w.disk call) := by
  obtain ⟨program, runs⟩ := isSome_iff_exists.1 succeeds
  obtain ⟨other, calls, saves⟩ := inv.calls allowed runs
  obtain rfl : data = other := some.inj (writes.symm.trans calls.record)
  rw [finished, runs]
  exact calls.writes.floor_finished (inv.note allowed) calls.id calls.past saves done

theorem mem_of_retention {d : Disk π ν} (stored : data ∈ d.records)
    (spared : data.completed = false ∨
      ∀ other ∈ d.records, other.completed = true → other.id ≠ data.id → other.less data = true)
    (steps : Nat) : data ∈ (d.run ((fs.enforceRetention d).take steps)).records := by
  have shrinks := (fs.shrinks_enforceRetention d).crash steps
  refine shrinks.kept data stored (FileStorage.not_victim fun done => ?_)
  rcases spared with waits | newest
  · cases waits.symm.trans done
  · have alone : d.rivals data = [] := by
      refine filter_eq_nil_iff.2 fun other mem rival => ?_
      simp only [and_eq_true, decide_eq_true_eq, not_eq_true'] at rival
      obtain ⟨⟨complete, differs⟩, after⟩ := rival
      cases (newest other mem complete differs).symm.trans after
    rw [alone]
    exact fs.retains

/-- In every run whose promotions are timely: a finished call has written what is loaded next; after
a crash what was loaded before is loaded or what the interrupted call writes; once a checkpoint has
completed, one is loaded as completed and none before the last one returned; and retention removes
neither the newest completed checkpoint nor one that is not completed. -/
theorem crash_consistent (reach : Reach (step fs) (Timely fs) {} w) :
    (∀ call : StorageCall π ν, w.opened = true → call.Allowed fs w → call.Timely fs w.disk →
      ((call.program fs w.disk).isSome = true →
        fs.load (finished fs w.disk call) = call.data fs w.disk) ∧
      ∀ steps attempts, fs.load (reopened fs (interrupted fs w.disk call steps) attempts) ∈
        [fs.load w.disk, call.data fs w.disk]) ∧
    (w.opened = true → ∀ attempts, fs.load (reopened fs w.disk attempts) = fs.load w.disk) ∧
    (∀ old ∈ w.disk.records, old.completed = true → ∀ v, Reach (step fs) (Timely fs) w v →
      ∃ data, fs.loadLatestCompleted v.disk = some data ∧ data ∈ v.disk.records ∧
        data.completed = true ∧ v.disk.Present data) ∧
    (∀ call data v u, Timely fs w (.call call) → step fs w (.call call) = some v →
      (call.program fs w.disk).isSome = true → call.data fs w.disk = some data →
      data.completed = true → Reach (step fs) (Timely fs) v u →
      ∃ newest, fs.loadLatestCompleted u.disk = some newest ∧ data.timestamp ≤ newest.timestamp) ∧
    ∀ (d : Disk π ν), ∀ data ∈ d.records, (data.completed = false ∨
      ∀ other ∈ d.records, other.completed = true → other.id ≠ data.id → other.less data = true) →
      ∀ steps, data ∈ (d.run ((fs.enforceRetention d).take steps)).records := by
  have inv := inv_of_reach (inv_start fs) reach
  refine ⟨fun call opened allowed timely =>
    ⟨inv.load_finished allowed timely, fun steps attempts => ?_⟩,
    inv.load_halted, fun old stored done v later => ?_,
      fun call data v u timely moves succeeds writes
      done later => ?_, fun d data stored spared => mem_of_retention stored spared⟩
  · rcases inv.load_crashed opened allowed timely steps attempts with same | written
    · simp [same]
    · simp [written]
  · have floor : FileStorage.Floor none w.disk :=
      ⟨⟨old, stored, done, fun t mem => absurd mem (not_mem_none t)⟩,
        fun _ _ _ _ _ t mem => absurd mem (not_mem_none t)⟩
    obtain ⟨data, loaded, held, complete, present, -⟩ :=
      (floor_of_reach inv floor later).loadLatestCompleted
      (inv_of_reach inv later).sound
    exact ⟨data, loaded, held, complete, present⟩
  · have next := inv.step moves
    obtain ⟨⟨opened, allowed⟩, rfl⟩ := of_ite_some moves
    have floor := inv.floor_finished allowed succeeds writes done
    obtain ⟨newest, loaded, -, -, -, late⟩ := (floor_of_reach next floor later).loadLatestCompleted
      (inv_of_reach next later).sound
    exact ⟨newest, loaded, late data.timestamp rfl⟩

open FileStorage (keepOne plain)

instance (d : Disk Unit Unit) (call : StorageCall Unit Unit) :
    Decidable (call.Timely keepOne d) := by
  cases call with
  | save => exact isTrue trivial
  | promote =>
    exact inferInstanceAs
      (Decidable (∀ data ∈ keepOne.load d, (d.rivals data).length < keepOne.retainCompleted))

instance (w : StorageWorld Unit Unit) (event : StorageEvent Unit Unit) :
    Decidable (Timely keepOne w event) := by
  cases event <;> unfold Timely <;> infer_instance

/-- Retention has removed the first checkpoint and a crash has interrupted the third when the fourth
is promoted and loaded. -/
theorem crash_consistent_promote : ∃ w, Reach (step keepOne) (Timely keepOne) {} w ∧
    w.disk.records = [plain 2 .completed, plain 4 .prepared] ∧
    keepOne.load (finished keepOne w.disk .promote) = some (plain 4 .completed) := by
  obtain ⟨w, reach, facts⟩ := Reach.exists_of_guarded (step keepOne) (Timely keepOne) {}
    [.call (.save (plain 1 .completed)), .call (.save (plain 2 .completed)),
      .crash (.save (plain 3 .prepared)) 0, .reopen, .call (.save (plain 4 .prepared))]
    (fun w => w.opened && decide (w.disk.records = [plain 2 .completed, plain 4 .prepared]) &&
      decide (StorageCall.promote.Allowed keepOne w) && decide
        (StorageCall.promote.Timely keepOne w.disk) &&
      (StorageCall.promote.program keepOne w.disk).isSome &&
      decide (StorageCall.promote.data keepOne w.disk = some (plain 4 .completed)))
        (by decide +kernel)
  simp only [Bool.and_eq_true, decide_eq_true_eq] at facts
  obtain ⟨⟨⟨⟨⟨opened, records⟩, allowed⟩, timely⟩, runs⟩, data⟩ := facts
  exact ⟨w, reach, records,
    (((crash_consistent reach).1 .promote opened allowed timely).1 runs).trans data⟩

/-- The only completed checkpoint that is kept is one that a crash has left behind, so the
checkpoint that is promoted is not loaded. -/
theorem promoted_not_loaded : ∃ w, Reach (step keepOne) Transition.Always {} w ∧
    (w.opened && keepOne.load w.disk = some (plain 1 .prepared) &&
      (StorageCall.promote.program keepOne w.disk).isSome &&
      keepOne.load (finished keepOne w.disk .promote) = some (plain 2 .completed)) = true :=
  Reach.exists_of_run (step keepOne) {} [.call (.save (plain 1 .prepared)),
    .crash (.save (plain 2 .completed)) 1, .reopen] _ (by decide +kernel)

end StorageWorld

end Weibo.Checkpoint
