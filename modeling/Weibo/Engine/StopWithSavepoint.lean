import Weibo.Checkpoint.Savepoint
import Weibo.Engine.JoinShutdown

/-!
# Stop with savepoint

A stop with savepoint cancels the run; the injector puts one last barrier into the stream, the
pipeline drains, and `promoteSavepoint` archives the latest completed checkpoint. That it is the
checkpoint of the last barrier is nowhere checked.
-/

namespace Weibo.Engine

open Checkpoint List Option
open Transition (Reach of_ite_none of_ite_some)

variable {π ν : Type}

structure ServePlan (π ν : Type) where
  storage : FileStorage π ν
  coordinated : Bool
  runNonce : Nat

/-- `checkpoint.NewFileStorage`, with `DefaultRetainedCheckpoints`: how `promoteSavepoint` opens the
directory, whatever the job retains. -/
def ServePlan.reopened (plan : ServePlan π ν) : FileStorage π ν :=
  { plan.storage with retainCompleted := 3, retains := by decide }

/-- The smaller retention of the two. -/
def ServePlan.tight (plan : ServePlan π ν) : FileStorage π ν :=
  { plan.storage with
    retainCompleted := min plan.storage.retainCompleted plan.reopened.retainCompleted
    retains := le_min plan.storage.retains plan.reopened.retains }

/-- `Phase`, from `Run` on. -/
inductive Phase
  | running
  | cancelling
  | finished
  | failed
  deriving DecidableEq

def Phase.terminal (phase : Phase) : Bool := phase = .finished || phase = .failed

structure InjectedBarrier (π : Type) where
  id : CheckpointID
  offsets : π

structure ReachedBarrier (π ν : Type) where
  barrier : InjectedBarrier π
  state : ν
  stateDirs : List (String × StatePath)
  sinkErr : Bool := false

def ReachedBarrier.record (reached : ReachedBarrier π ν) (status : Status) (now : Time) :
    CheckpointRecord π ν where
  id := reached.barrier.id
  source := some reached.barrier.offsets
  operators := some reached.state
  status
  timestamp := now
  stateDirs := reached.stateDirs

inductive FinalizeWorker (π ν : Type)
  | idle
  | persist (reached : ReachedBarrier π ν)
  | commit (data : CheckpointRecord π ν)
  | complete (data : CheckpointRecord π ν)

structure Serving (π ν : Type) where
  disk : Disk π ν := {}
  cancelled : Bool := false
  hard : Bool := false
  request : Option String := none
  checkpointID : Nat := 0
  closing : Option (InjectedBarrier π) := none
  stopped : Bool := false
  upstream : List (InjectedBarrier π) := []
  prepared : List (ReachedBarrier π ν) := []
  worker : FinalizeWorker π ν := .idle
  coordErr : Option Fault := none
  errs : List Fault := []
  phase : Phase := .running
  savepoint : Option (List (ArchiveEntry π ν)) := none
  exitCode : Option Nat := none

inductive ServeAction (π ν : Type)
  | cancel
  | requestSavepoint (label : String)
  | writeState (id : CheckpointID) (path : StatePath)
  | tick (offsets : π)
  | close (kind : BarrierKind) (offsets : π)
  | giveUp
  | save (state : ν) (stateDirs : List (String × StatePath)) (now : Time) (fails : Option Nat)
  | prepare (state : ν) (stateDirs : List (String × StatePath)) (sinkErr : Bool)
  | dequeue
  | persist (now : Time) (fails : Option Nat)
  | commit (failure : Option Fault)
  | complete (fails : Option Nat)
  | drop
  | timeout
  | stageFails (failure : Fault)
  | unwind
  | finish
  | promote (put : Bool)

namespace Serving

/-- `reportFatal`: the first error stays. -/
def reportFatal (s : Serving π ν) (failure : Fault) : Serving π ν :=
  { s with coordErr := s.coordErr.or (some failure) }

/-- A call of the storage that takes all its steps, or fails after some of them; nothing when it
fails. -/
def storageCall (d : Disk π ν) (program : Option (List (FileStep π ν))) (fails : Option Nat) :
    Disk π ν × Bool :=
  match program, fails with
  | some steps, none => (d.run steps, true)
  | some steps, some n => (d.run (steps.take n), false)
  | none, _ => (d, false)

def stageErr (s : Serving π ν) : Option Fault := s.errs.find? fun failure => failure ≠ .canceled

def executeErr (plan : ServePlan π ν) (s : Serving π ν) : Option Fault :=
  match s.coordErr with
  | some failure =>
    if plan.coordinated ∧ ¬(failure = .canceled ∧ s.cancelled) then some failure else s.stageErr
  | none => s.stageErr

def runPhase (plan : ServePlan π ν) (s : Serving π ν) : Phase :=
  match s.executeErr plan with
  | some failure => if failure = .canceled ∧ s.cancelled then .finished else .failed
  | none => .finished

def code (phase : Phase) : Nat := if phase = .failed then 1 else 0

def nextBarrier (plan : ServePlan π ν) (s : Serving π ν) (kind : BarrierKind) (offsets : π) :
    InjectedBarrier π := ⟨⟨plan.runNonce, s.checkpointID + 1, kind⟩, offsets⟩

def step (plan : ServePlan π ν) (s : Serving π ν) : ServeAction π ν → Option (Serving π ν)
  | .cancel =>
    if s.phase.terminal then none
    else some { s with cancelled := true, phase := .cancelling }
  | .requestSavepoint label =>
    if s.phase.terminal then none
    else some { s with cancelled := true, phase := .cancelling, request := some label }
  | .writeState id path =>
    if s.phase.terminal then none else some { s with disk := s.disk.apply (.writeState id path) }
  | .tick offsets =>
    if s.stopped then none
    else some { s with
      checkpointID := s.checkpointID + 1
      upstream := s.upstream ++ [s.nextBarrier plan .periodic offsets] }
  | .close kind offsets =>
    if s.stopped ∨ kind = .periodic ∨ (kind = .shutdown ∧ ¬s.cancelled) then none
    else some { s with
      checkpointID := s.checkpointID + 1
      closing := some (s.nextBarrier plan kind offsets)
      stopped := true
      upstream := s.upstream ++ [s.nextBarrier plan kind offsets] }
  | .giveUp => if s.hard then some { s with stopped := true } else none
  | .save state stateDirs now fails =>
    match plan.coordinated, s.upstream with
    | false, barrier :: rest =>
      let data := ReachedBarrier.record { barrier, state, stateDirs } .completed now
      let (disk, _) := storageCall s.disk (plan.storage.saveLocked s.disk data) fails
      some { s with disk, upstream := rest }
    | _, _ => none
  | .prepare state stateDirs sinkErr =>
    match plan.coordinated, s.upstream with
    | true, barrier :: rest =>
      some { s with
        upstream := rest
        prepared := s.prepared ++ [{ barrier, state, stateDirs, sinkErr }] }
    | _, _ => none
  | .dequeue =>
    match s.worker, s.prepared with
    | .idle, reached :: rest =>
      if reached.sinkErr then
        some (reportFatal { s with
          prepared := rest
          disk := s.disk.run (s.disk.deleteStateDirs reached.barrier.id) } .other)
      else some { s with prepared := rest, worker := .persist reached }
    | _, _ => none
  | .persist now fails =>
    match s.worker with
    | .persist reached =>
      let data := reached.record .prepared now
      match storageCall s.disk (plan.storage.saveLocked s.disk data) fails with
      | (disk, true) => some { s with disk, worker := .commit data }
      | (disk, false) =>
        some (reportFatal { s with
          disk := disk.run (disk.deleteStateDirs data.id), worker := .idle } .other)
    | _ => none
  | .commit failure =>
    match s.worker, failure with
    | .commit data, none => some { s with worker := .complete data }
    | .commit _, some failure => some (reportFatal { s with worker := .idle } failure)
    | _, _ => none
  | .complete fails =>
    match s.worker with
    | .complete data =>
      match storageCall s.disk (plan.storage.updateStatus s.disk data.id .completed) fails with
      | (disk, true) => some { s with disk, worker := .idle }
      | (disk, false) => some (reportFatal { s with disk, worker := .idle } .other)
    | _ => none
  | .drop =>
    match s.hard, s.upstream with
    | true, _ :: rest => some { s with upstream := rest }
    | _, _ => none
  | .timeout => if s.cancelled then some { s with hard := true } else none
  | .stageFails failure =>
    if s.phase.terminal then none else some { s with errs := s.errs ++ [failure], hard := true }
  | .unwind => if s.coordErr.isSome then some { s with hard := true } else none
  | .finish =>
    match s.worker with
    | .idle =>
      if s.phase.terminal ∨ ¬s.stopped ∨
        ¬(s.hard ∨ (s.upstream.isEmpty ∧ s.prepared.isEmpty)) then none
      else some { s with upstream := [], prepared := [], phase := s.runPhase plan }
    | _ => none
  | .promote put =>
    if ¬s.phase.terminal ∨ s.exitCode.isSome then none
    else match s.request with
      | none => some { s with exitCode := some (code s.phase) }
      | some _ =>
        let (steps, savepoint) := plan.reopened.createSavepoint s.disk put
        let phase := if savepoint.isNone then .failed else s.phase
        some { s with disk := s.disk.run steps, savepoint, phase, exitCode := some (code phase) }

/-! ## Where the last checkpoint is -/

/-- The checkpoint of the last barrier is stored as completed and is the latest one, and no other
checkpoint follows it. -/
structure Rests (plan : ServePlan π ν) (closing : Option (InjectedBarrier π)) (disk : Disk π ν)
    (upstream : List (InjectedBarrier π)) (prepared : List (ReachedBarrier π ν))
    (worker : FinalizeWorker π ν) (barrier : InjectedBarrier π) (data : CheckpointRecord π ν) :
    Prop where
  closing : closing = some barrier
  id : data.id = barrier.id
  source : data.source = some barrier.offsets
  restored : plan.tight.Restored data disk
  upstream : upstream = []
  prepared : prepared = []
  worker : worker = .idle

abbrev Covered (plan : ServePlan π ν) (s : Serving π ν) :
    InjectedBarrier π → CheckpointRecord π ν → Prop :=
  Rests plan s.closing s.disk s.upstream s.prepared s.worker

/-- A run is orderly: the checkpoint of the last barrier is saved without an error and is removed by
neither retention, the job's or the default one, the shutdown timeout does not expire before that,
and cancellation errors come from a cancelled `hardCtx` only. -/
def Orderly (plan : ServePlan π ν) (s : Serving π ν) : ServeAction π ν → Prop
  | .save state stateDirs now fails =>
    ∀ barrier, s.closing = some barrier → s.upstream = [barrier] →
    fails = none ∧
      s.disk.Present (ReachedBarrier.record { barrier, state, stateDirs } .completed now) ∧
      (s.disk.rivals (ReachedBarrier.record { barrier, state, stateDirs } .completed now)).length <
        plan.tight.retainCompleted
  | .complete _ => ∀ barrier data, s.closing = some barrier → s.worker = .complete data →
    data.id = barrier.id → (s.disk.rivals data).length < plan.tight.retainCompleted
  | .timeout => ∃ barrier data, s.Covered plan barrier data
  | .stageFails failure => failure = .canceled → s.hard = true
  | .commit failure => failure = some .canceled → s.hard = true
  | _ => True

/-- The checkpoint of a barrier is on its way. -/
inductive Way (upstream : List (InjectedBarrier π)) (prepared : List (ReachedBarrier π ν))
    (worker : FinalizeWorker π ν) (barrier : InjectedBarrier π) : Prop
  | upstream {before : List (InjectedBarrier π)} (last : upstream = before ++ [barrier])
  | prepared {before : List (ReachedBarrier π ν)} {reached : ReachedBarrier π ν}
      (arrived : upstream = []) (last : prepared = before ++ [reached])
      (same : reached.barrier = barrier)
  | persist {reached : ReachedBarrier π ν} (arrived : upstream = []) (taken : prepared = [])
      (worker : worker = .persist reached) (same : reached.barrier = barrier)
  | decide {data : CheckpointRecord π ν} (arrived : upstream = []) (taken : prepared = [])
      (worker : worker = .commit data ∨ worker = .complete data) (id : data.id = barrier.id)
      (source : data.source = some barrier.offsets)

abbrev Placed (s : Serving π ν) : InjectedBarrier π → Prop := Way s.upstream s.prepared s.worker

/-- `Execute` will return an error. -/
def Doomed (plan : ServePlan π ν) (s : Serving π ν) : Prop :=
  (∃ failure ∈ s.errs, failure ≠ .canceled) ∨ plan.coordinated = true ∧ s.coordErr = some .other

/-- The archive holds the record of the closing barrier, with its offsets. -/
def Captured (s : Serving π ν) : Prop :=
  ∃ barrier data archive, s.closing = some barrier ∧ barrier.id.kind ≠ .periodic ∧
    s.savepoint = some archive ∧ savedRecord archive = some data ∧ data.id = barrier.id ∧
    data.source = some barrier.offsets

structure Inv (plan : ServePlan π ν) (s : Serving π ν) : Prop where
  kind : ∀ barrier, s.closing = some barrier → s.stopped = true ∧ barrier.id.kind ≠ .periodic
  stopped : s.stopped = true → s.hard = true ∨ ∃ barrier, s.closing = some barrier
  place : ∀ barrier, s.closing = some barrier →
    s.Placed barrier ∨ (∃ data, s.Covered plan barrier data) ∨ s.Doomed plan
  hard : s.hard = true → (∃ barrier data, s.Covered plan barrier data) ∨ s.Doomed plan
  canceled : s.coordErr = some .canceled → s.hard = true
  coordinated : plan.coordinated = false → s.prepared = [] ∧ s.worker = .idle ∧ s.coordErr = none
  held : ∀ data, s.worker = .commit data ∨ s.worker = .complete data → data ∈ s.disk.records
  settled : s.phase.terminal = true → s.worker = .idle ∧ s.upstream = [] ∧ s.prepared = [] ∧
    s.stopped = true
  finished : s.phase = .finished → ∃ barrier data, s.Covered plan barrier data
  exited : s.exitCode.isSome = true → s.phase.terminal = true
  success : s.exitCode = some 0 → s.request.isSome = true → s.Captured

variable {plan : ServePlan π ν} {s t : Serving π ν}

variable {barrier : InjectedBarrier π}

variable {data : CheckpointRecord π ν}

theorem Way.not_covered {other : InjectedBarrier π}
    (placed : s.Placed barrier) (covered : s.Covered plan other data) : False := by
  cases placed with
  | upstream last => simp [covered.upstream] at last
  | prepared arrived last same => simp [covered.prepared] at last
  | persist arrived taken working same =>
    cases covered.worker.symm.trans working
  | decide arrived taken working id source =>
    simp [covered.worker] at working

theorem Inv.reportFatal (inv : s.Inv plan) (coordinated : plan.coordinated = true)
    (errs : t.errs = s.errs) (coordErr : t.coordErr = s.coordErr.or (some .other))
    (uncovered : ∀ barrier data, ¬s.Covered plan barrier data) : t.Doomed plan := by
  cases fatal : s.coordErr with
  | none => exact .inr ⟨coordinated, by rw [coordErr, fatal]; rfl⟩
  | some failure =>
    rw [fatal, some_or] at coordErr
    cases failure with
    | other => exact .inr ⟨coordinated, coordErr⟩
    | canceled =>
      rcases inv.hard (inv.canceled fatal) with ⟨barrier, data, covered⟩ | doomed
      · exact absurd covered (uncovered barrier data)
      · rcases doomed with failed | ⟨-, other⟩
        · exact .inl (errs ▸ failed)
        · cases fatal.symm.trans other

theorem stageErr_eq
    (failed : ∃ failure ∈ s.errs, failure ≠ .canceled) : s.stageErr = some .other := by
  obtain ⟨failure, mem, real⟩ := failed
  cases search : s.stageErr with
  | none => exact absurd real (by simpa using List.find?_eq_none.1 search failure mem)
  | some found =>
    have differs := List.find?_some search
    cases found with
    | canceled => simp at differs
    | other => rfl

theorem Doomed.runPhase (doomed : s.Doomed plan) : s.runPhase plan = .failed := by
  have returns : s.executeErr plan = some .other ∨
      s.executeErr plan = some .canceled ∧ s.cancelled = false := by
    cases fatal : s.coordErr with
    | none =>
      rcases doomed with failed | ⟨-, reported⟩
      · exact .inl (by simp only [executeErr, fatal, stageErr_eq failed])
      · cases fatal.symm.trans reported
    | some failure =>
      by_cases counts : plan.coordinated = true ∧ ¬(failure = .canceled ∧ s.cancelled = true)
      · have error : s.executeErr plan = some failure := by
          simp only [executeErr, fatal, if_pos counts]
        cases failure with
        | other => exact .inl error
        | canceled => exact .inr ⟨error, by simpa using counts.2⟩
      · have error : s.executeErr plan = s.stageErr := by
          simp only [executeErr, fatal, if_neg counts]
        rcases doomed with failed | ⟨coordinated, reported⟩
        · exact .inl (error.trans (stageErr_eq failed))
        · obtain rfl : failure = .other := some.inj (fatal.symm.trans reported)
          exact absurd ⟨coordinated, by simp⟩ counts
  rcases returns with error | ⟨error, running⟩
  · simp [Serving.runPhase, error]
  · simp [Serving.runPhase, error, running]

theorem Inv.carry (inv : s.Inv plan) (disk : Disk π ν)
    (restores : ∀ {barrier data}, s.Covered plan barrier data → plan.tight.Restored data disk) :
    (∀ barrier, s.closing = some barrier →
      s.Placed barrier ∨ (∃ data, Covered plan { s with disk } barrier data) ∨ s.Doomed plan) ∧
    (s.hard = true → (∃ barrier data, Covered plan { s with disk } barrier data) ∨ s.Doomed plan) ∧
    (s.phase = .finished → ∃ barrier data, Covered plan { s with disk } barrier data) := by
  have covers {barrier data} (covered : s.Covered plan barrier data) :
      Covered plan { s with disk } barrier data := { covered with restored := restores covered }
  exact ⟨fun barrier last =>
    (inv.place barrier last).imp_right (Or.imp_left (Exists.imp fun _ => covers)),
    fun forced => (inv.hard forced).imp_left (Exists.imp fun _ => Exists.imp fun _ => covers),
    fun finished => (inv.finished finished).imp fun _ => Exists.imp fun _ => covers⟩

theorem Inv.writeState (inv : s.Inv plan) (id : CheckpointID) (path : StatePath) :
    Inv plan { s with disk := s.disk.apply (.writeState id path) } := by
  obtain ⟨place, hard, finished⟩ := inv.carry _ fun covered => covered.restored.writeState id path
  exact { inv with place, hard, finished, held := inv.held }

def Busy (s : Serving π ν) : Prop :=
  s.upstream ≠ [] ∨ s.prepared ≠ [] ∨ s.worker ≠ .idle

theorem Busy.not_covered (busy : s.Busy) (covered : s.Covered plan barrier data) : False := by
  rcases busy with some | some | some
  · exact some covered.upstream
  · exact some covered.prepared
  · exact some covered.worker

theorem Inv.moves (inv : s.Inv plan) (busy : s.Busy) {upstream : List (InjectedBarrier π)}
    {prepared : List (ReachedBarrier π ν)} {worker : FinalizeWorker π ν} {disk : Disk π ν}
    {coordErr : Option Fault}
    (place : ∀ barrier, s.closing = some barrier → s.Placed barrier →
      Way upstream prepared worker barrier ∨
      (∃ data, Rests plan s.closing disk upstream prepared worker barrier data) ∨
        Doomed plan { s with coordErr })
    (doomed : s.Doomed plan → Doomed plan { s with coordErr })
    (canceled : coordErr = some .canceled → s.hard = true)
    (coordinated : plan.coordinated = false → prepared = [] ∧ worker = .idle ∧ coordErr = none)
    (held : ∀ data, worker = .commit data ∨ worker = .complete data → data ∈ disk.records) :
    Inv plan { s with upstream, prepared, worker, disk, coordErr } := by
  have running : ¬s.phase.terminal = true := by
    intro terminal
    obtain ⟨worker, upstream, prepared, -⟩ := inv.settled terminal
    rcases busy with some | some | some
    · exact some upstream
    · exact some prepared
    · exact some worker
  refine { inv with
    canceled, coordinated, held
    place := fun barrier last => ?_
    hard := fun forced => ?_
    settled := fun terminal => absurd terminal running
    finished := fun finished => absurd (congrArg Phase.terminal finished) running
    success := fun success => absurd (inv.exited (congrArg Option.isSome success)) running }
  · rcases inv.place barrier last with placed | ⟨data, covered⟩ | fails
    · exact place barrier last placed
    · exact (busy.not_covered covered).elim
    · exact .inr (.inr (doomed fails))
  · rcases inv.hard forced with ⟨barrier, data, covered⟩ | fails
    · exact (busy.not_covered covered).elim
    · exact .inr (doomed fails)

theorem Way.next {head : InjectedBarrier π} {rest : List (InjectedBarrier π)}
    (placed : s.Placed barrier) (upstream : s.upstream = head :: rest) :
    (rest = [] ∧ head = barrier) ∨ ∃ before, rest = before ++ [barrier] := by
  cases placed with
  | @upstream before last =>
    rw [upstream] at last
    cases before with
    | nil =>
      obtain ⟨rfl, rfl⟩ := cons.inj last
      exact .inl ⟨rfl, rfl⟩
    | cons first before => exact .inr ⟨before, (cons.inj last).2⟩
  | prepared arrived last same | persist arrived taken working same
  | decide arrived taken working id source => simp [upstream] at arrived

variable {fails : Option Nat}

theorem Inv.save (inv : s.Inv plan) {state : ν} {stateDirs : List (String × StatePath)} {now : Time}
    (orderly : s.Orderly plan (.save state stateDirs now fails))
    (moves : s.step plan (.save state stateDirs now fails) = some t) : t.Inv plan := by
  simp only [step] at moves
  split at moves
  next head rest alone upstream =>
    cases moves
    obtain ⟨prepared, worker, coordErr⟩ := inv.coordinated alone
    refine inv.moves (.inl (by simp [upstream])) ?_ (fun doomed => doomed)
      inv.canceled inv.coordinated fun data working => ?_
    · intro barrier last placed
      rcases placed.next upstream with ⟨rfl, rfl⟩ | ⟨before, behind⟩
      · obtain ⟨rfl, present, few⟩ := orderly head last upstream
        refine .inr
          (.inl ⟨ReachedBarrier.record { barrier := head, state, stateDirs } .completed now,
          last, rfl, rfl, ?_, rfl, prepared, worker⟩)
        simp only [storageCall, FileStorage.saveLocked, if_pos present]
        exact FileStorage.restored_of_saveLocked (Nat.min_le_left ..) rfl few (if_pos present)
      · exact .inl (.upstream behind)
    · simp [worker] at working
  next => cases moves

theorem Inv.prepare (inv : s.Inv plan) {state : ν} {stateDirs : List (String × StatePath)}
    {sinkErr : Bool}
    (moves : s.step plan (.prepare state stateDirs sinkErr) = some t) : t.Inv plan := by
  simp only [step] at moves
  split at moves
  next head rest coordinated upstream =>
    cases moves
    refine inv.moves (.inl (by simp [upstream])) ?_ (fun doomed => doomed)
      inv.canceled (fun alone => ?_) inv.held
    · intro barrier last placed
      rcases placed.next upstream with ⟨rfl, rfl⟩ | ⟨before, behind⟩
      · exact .inl (.prepared rfl rfl rfl)
      · exact .inl (.upstream behind)
    · cases coordinated.symm.trans alone
  next => cases moves

theorem Inv.coordinated_of (inv : s.Inv plan) (busy : s.prepared ≠ [] ∨ s.worker ≠ .idle) :
    plan.coordinated = true := by
  by_contra alone
  obtain ⟨prepared, worker, -⟩ := inv.coordinated (Bool.eq_false_of_not_eq_true alone)
  exact busy.elim (fun some => some prepared) fun some => some worker

theorem Inv.canceled_or (inv : s.Inv plan) {failure : Fault} (real : failure = .canceled →
    s.hard = true) (reported : s.coordErr.or (some failure) = some .canceled) : s.hard = true := by
  cases fatal : s.coordErr with
  | none =>
    rw [fatal] at reported
    exact real (some.inj reported)
  | some first =>
    rw [fatal, some_or] at reported
    exact inv.canceled (fatal.trans reported)

theorem Doomed.report (doomed : s.Doomed plan) (failure : Fault) (errs : t.errs = s.errs)
    (coordErr : t.coordErr = s.coordErr.or (some failure)) : t.Doomed plan := by
  rcases doomed with failed | ⟨coordinated, other⟩
  · exact .inl (errs ▸ failed)
  · rw [other, some_or] at coordErr
    exact .inr ⟨coordinated, coordErr⟩

theorem Inv.dequeue (inv : s.Inv plan) (moves : s.step plan .dequeue = some t) : t.Inv plan := by
  simp only [step] at moves
  split at moves
  next reached rest worker prepared =>
    have busy : s.Busy := .inr (.inl (by simp [prepared]))
    have coordinated : plan.coordinated = true := inv.coordinated_of (.inl (by simp [prepared]))
    -- The last checkpoint is taken up, or it stays behind.
    have next : ∀ {barrier}, s.Placed barrier → (∃ before, s.upstream = before ++ [barrier]) ∨
        s.upstream = [] ∧ (rest = [] ∧ reached.barrier = barrier ∨
          ∃ before last, rest = before ++ [last] ∧ last.barrier = barrier) := by
      intro barrier placed
      cases placed with
      | upstream last => exact .inl ⟨_, last⟩
      | @prepared before reached' arrived last same =>
        rw [prepared] at last
        refine .inr ⟨arrived, ?_⟩
        cases before with
        | nil =>
          obtain ⟨rfl, rfl⟩ := cons.inj last
          exact .inl ⟨rfl, same⟩
        | cons first before => exact .inr ⟨before, reached', (cons.inj last).2, same⟩
      | persist arrived taken working same | decide arrived taken working id source =>
        simp [prepared] at taken
    split at moves
    · cases moves
      refine inv.moves busy ?_ (fun doomed => doomed.report .other rfl rfl)
        (inv.canceled_or fun never => Fault.noConfusion never) (fun alone => ?_) fun data working =>
          ?_
      · intro barrier last placed
        rcases next placed with ⟨before, behind⟩ | ⟨arrived, ⟨-, -⟩ | ⟨before, later, behind, same⟩⟩
        · exact .inl (.upstream behind)
        · exact .inr (.inr (inv.reportFatal coordinated rfl rfl fun _ _ => busy.not_covered))
        · exact .inl (.prepared arrived behind same)
      · cases coordinated.symm.trans alone
      · change s.worker = .commit data ∨ s.worker = .complete data at working
        simp [worker] at working
    · cases moves
      refine inv.moves busy ?_ (fun doomed => doomed) inv.canceled
        (fun alone => ?_) fun data working => ?_
      · intro barrier last placed
        rcases next placed with
          ⟨before, behind⟩ | ⟨arrived, ⟨rfl, same⟩ | ⟨before, later, behind, same⟩⟩
        · exact .inl (.upstream behind)
        · exact .inl (.persist arrived rfl rfl same)
        · exact .inl (.prepared arrived behind same)
      · cases coordinated.symm.trans alone
      · simp at working
  next => cases moves

theorem Way.of_worker (placed : s.Placed barrier) :
    (∀ worker, Way s.upstream s.prepared worker barrier) ∨
      s.upstream = [] ∧ s.prepared = [] ∧
      ((∃ reached, s.worker = .persist reached ∧ reached.barrier = barrier) ∨
        ∃ data, (s.worker = .commit data ∨ s.worker = .complete data) ∧ data.id = barrier.id ∧
          data.source = some barrier.offsets) := by
  cases placed with
  | upstream last => exact .inl fun _ => .upstream last
  | prepared arrived last same => exact .inl fun _ => .prepared arrived last same
  | persist arrived taken working same => exact .inr ⟨arrived, taken, .inl ⟨_, working, same⟩⟩
  | decide arrived taken working id source =>
    exact .inr ⟨arrived, taken, .inr ⟨_, working, id, source⟩⟩

theorem storageCall_ok {d after : Disk π ν} {program : Option (List (FileStep π ν))}
    (succeeds : storageCall d program fails = (after, true)) :
    ∃ steps, program = some steps ∧ after = d.run steps := by
  simp only [storageCall] at succeeds
  split at succeeds
  next steps => exact ⟨steps, rfl, (Prod.mk.inj succeeds).1.symm⟩
  · cases (Prod.mk.inj succeeds).2
  · cases (Prod.mk.inj succeeds).2

theorem Inv.workerFails (inv : s.Inv plan) (works : s.worker ≠ .idle) (disk : Disk π ν)
    (failure : Fault) (real : failure = .canceled → s.hard = true) :
    Inv plan (Serving.reportFatal { s with disk, worker := .idle } failure) := by
  have busy : s.Busy := .inr (.inr works)
  have coordinated := inv.coordinated_of (.inr works)
  refine inv.moves busy (fun barrier last placed => ?_)
    (fun doomed => doomed.report failure rfl rfl) (inv.canceled_or real) (fun alone => ?_)
    fun data working => ?_
  · rcases placed.of_worker with stays | -
    · exact .inl (stays _)
    · refine .inr (.inr ?_)
      cases failure with
      | other => exact inv.reportFatal coordinated rfl rfl fun _ _ => busy.not_covered
      | canceled =>
        rcases inv.hard (real rfl) with ⟨barrier, data, covered⟩ | doomed
        · exact (busy.not_covered covered).elim
        · exact doomed.report .canceled rfl rfl
  · cases coordinated.symm.trans alone
  · rcases working with working | working <;> cases working

theorem Inv.workerMoves (inv : s.Inv plan) (works : s.worker ≠ .idle) {disk : Disk π ν}
    {worker : FinalizeWorker π ν}
    (place : ∀ barrier, s.closing = some barrier → s.upstream = [] → s.prepared = [] →
      ((∃ reached, s.worker = .persist reached ∧ reached.barrier = barrier) ∨
        ∃ data, (s.worker = .commit data ∨ s.worker = .complete data) ∧ data.id = barrier.id ∧
          data.source = some barrier.offsets) →
      Placed { s with disk, worker } barrier ∨
        ∃ data, ({ s with disk, worker } : Serving π ν).Covered plan barrier data)
    (held : ∀ data, worker = .commit data ∨ worker = .complete data → data ∈ disk.records) :
    Inv plan { s with disk, worker } := by
  refine inv.moves (.inr (.inr works)) (fun barrier last placed => ?_)
    (fun doomed => doomed) inv.canceled (fun alone => absurd (inv.coordinated alone).2.1 works) held
  rcases placed.of_worker with stays | ⟨arrived, taken, working⟩
  · exact .inl (stays _)
  · exact (place barrier last arrived taken working).imp_right .inl

theorem Inv.persist (inv : s.Inv plan) {now : Time}
    (moves : s.step plan (.persist now fails) = some t) : t.Inv plan := by
  simp only [step] at moves
  split at moves
  next reached worker =>
    have works : s.worker ≠ .idle := by simp [worker]
    split at moves
    next disk succeeds =>
      cases moves
      obtain ⟨steps, saves, rfl⟩ := storageCall_ok succeeds
      refine inv.workerMoves works (fun barrier _ arrived taken => ?_) fun data working => ?_
      · rintro (⟨other, working, same⟩ | ⟨data, working, -⟩)
        · obtain rfl : reached = other := FinalizeWorker.persist.inj (worker.symm.trans working)
          exact .inl (.decide arrived taken (.inl rfl) (by rw [← same]; rfl) (by rw [← same]; rfl))
        · simp [worker] at working
      · obtain rfl : reached.record .prepared now = data := by
          rcases working with working | working
          · exact FinalizeWorker.commit.inj working
          · cases working
        exact FileStorage.mem_of_saveLocked rfl saves
    next disk failed =>
      cases moves
      exact inv.workerFails works _ .other fun never => Fault.noConfusion never
  next => cases moves

theorem Inv.commit (inv : s.Inv plan) {failure : Option Fault}
    (orderly : s.Orderly plan (.commit failure)) (moves : s.step plan (.commit failure) = some t) :
    t.Inv plan := by
  simp only [step] at moves
  split at moves
  next data worker =>
    have works : s.worker ≠ .idle := by simp [worker]
    cases moves
    refine inv.workerMoves works (fun barrier _ arrived taken => ?_) fun other working => ?_
    · rintro (⟨reached, working, -⟩ | ⟨other, working, id, source⟩)
      · cases worker.symm.trans working
      · obtain rfl : data = other := by
          rw [worker] at working
          rcases working with working | working
          · exact FinalizeWorker.commit.inj working
          · cases working
        exact .inl (.decide arrived taken (.inr rfl) id source)
    · rcases working with working | working
      · cases working
      · exact FinalizeWorker.complete.inj working ▸ inv.held data (.inl worker)
  next data failed worker =>
    cases moves
    exact inv.workerFails (by simp [worker]) s.disk failed fun same => orderly (by rw [same])
  next => cases moves

theorem Inv.complete (inv : s.Inv plan) (orderly : s.Orderly plan (.complete fails))
    (moves : s.step plan (.complete fails) = some t) : t.Inv plan := by
  simp only [step] at moves
  split at moves
  next data worker =>
    have works : s.worker ≠ .idle := by simp [worker]
    split at moves
    next disk succeeds =>
      cases moves
      obtain ⟨steps, updates, rfl⟩ := storageCall_ok succeeds
      have found : s.disk.loadSpecific data.id = some data :=
        Disk.loadSpecific_eq_some.2 ⟨inv.held data (.inr worker), rfl⟩
      rw [FileStorage.updateStatus, found, bind_some] at updates
      refine inv.workerMoves works (fun barrier last arrived taken => ?_) fun other working => ?_
      · rintro (⟨reached, working, -⟩ | ⟨other, working, id, source⟩)
        · cases worker.symm.trans working
        · obtain rfl : data = other := by
            rw [worker] at working
            rcases working with working | working
            · cases working
            · exact FinalizeWorker.complete.inj working
          have few : (s.disk.rivals { data with status := .completed }).length <
            plan.tight.retainCompleted := orderly barrier data last worker id
          exact .inr ⟨{ data with status := .completed }, last, id, source,
            FileStorage.restored_of_saveLocked (Nat.min_le_left ..) rfl few updates, arrived, taken,
              rfl⟩
      · simp at working
    next disk failed =>
      cases moves
      exact inv.workerFails works disk .other fun never => Fault.noConfusion never
  next => cases moves

theorem Inv.forced (inv : s.Inv plan) (failures : List Fault)
    (safe : (∃ barrier data, s.Covered plan barrier data) ∨
      Doomed plan { s with errs := s.errs ++ failures }) :
    Inv plan { s with errs := s.errs ++ failures, hard := true } := by
  have doomed :
    s.Doomed plan → Doomed plan { s with errs := s.errs ++ failures, hard := true } := by
    rintro (⟨failure, mem, real⟩ | fatal)
    · exact .inl ⟨failure, mem_append_left _ mem, real⟩
    · exact .inr fatal
  exact { inv with
    stopped := fun _ => .inl rfl
    place := fun barrier last => (inv.place barrier last).imp_right (Or.imp_right doomed)
    hard := fun _ => safe
    canceled := fun _ => rfl }

theorem Inv.cancelled (inv : s.Inv plan) (running : ¬s.phase.terminal = true)
    (request : Option String) :
    Inv plan { s with cancelled := true, phase := .cancelling, request } := by
  refine { inv with
    settled := fun terminal => Bool.noConfusion terminal
    finished := fun finished => Phase.noConfusion finished
    exited := fun exited => absurd (inv.exited exited) running
    success := fun success => absurd (inv.exited (congrArg Option.isSome success)) running }

theorem Inv.open (inv : s.Inv plan) (running : ¬s.stopped = true) : s.closing = none ∧
    (∀ barrier data, ¬s.Covered plan barrier data) ∧ ¬s.phase.terminal = true := by
  have closing : s.closing = none := by
    cases last : s.closing with
    | none => rfl
    | some barrier => exact absurd (inv.kind barrier last).1 running
  refine ⟨closing, fun barrier data covered => ?_,
    fun terminal => running (inv.settled terminal).2.2.2⟩
  have last := covered.closing
  cases closing.symm.trans last

theorem Inv.inject (inv : s.Inv plan) (running : ¬s.stopped = true) (checkpointID : Nat)
    (barrier : InjectedBarrier π) (last : Bool) (kind : last = true → barrier.id.kind ≠ .periodic) :
    Inv plan { s with
      checkpointID
      closing := if last then some barrier else none
      stopped := last
      upstream := s.upstream ++ [barrier] } := by
  obtain ⟨closing, uncovered, busy⟩ := inv.open running
  refine { inv with
    kind := fun other same => ?_
    stopped := fun stopped => ?_
    place := fun other same => ?_
    hard := fun forced => ?_
    settled := fun terminal => absurd terminal busy
    finished := fun finished => absurd (congrArg Phase.terminal finished) busy
    success := fun success => absurd (inv.exited (congrArg Option.isSome success)) busy }
  · cases last with
    | true =>
      cases same
      exact ⟨rfl, kind rfl⟩
    | false => cases same
  · cases last with
    | true => exact .inr ⟨barrier, rfl⟩
    | false => cases stopped
  · cases last with
    | true =>
      cases same
      exact .inl (.upstream rfl)
    | false => cases same
  · rcases inv.hard forced with ⟨other, data, covered⟩ | fails
    · exact absurd covered (uncovered other data)
    · exact .inr fails

theorem Inv.finish (inv : s.Inv plan) (worker : s.worker = .idle) (stopped : s.stopped = true)
    (drained : s.hard = true ∨ s.upstream = [] ∧ s.prepared = [])
    (running : ¬s.phase.terminal = true) : Inv plan
    { s with upstream := [], prepared := [], phase := s.runPhase plan } := by
  have covers : ∀ {barrier data}, s.Covered plan barrier data → Covered plan
      { s with upstream := [], prepared := [], phase := s.runPhase plan } barrier data :=
    fun covered => { covered with upstream := rfl, prepared := rfl }
  -- A checkpoint that is on its way is lost only in a run that fails.
  have decided : ∀ barrier, s.closing = some barrier →
      (∃ data, s.Covered plan barrier data) ∨ s.Doomed plan := by
    intro barrier last
    rcases inv.place barrier last with placed | decided
    · rcases drained with forced | ⟨upstream, prepared⟩
      · rcases inv.hard forced with ⟨other, data, covered⟩ | fails
        · exact (placed.not_covered covered).elim
        · exact .inr fails
      · cases placed with
        | upstream last => simp [upstream] at last
        | prepared arrived last same => simp [prepared] at last
        | persist arrived taken working same =>
          cases worker.symm.trans working
        | decide arrived taken working id source =>
          simp [worker] at working
    · exact decided
  refine { inv with
    place := fun barrier last => ?_
    hard := fun forced => ?_
    coordinated := fun alone => ⟨rfl, (inv.coordinated alone).2⟩
    settled := fun _ => ⟨worker, rfl, rfl, stopped⟩
    finished := fun finished => ?_
    exited := fun exited => absurd (inv.exited exited) running
    success := fun success => absurd (inv.exited (congrArg Option.isSome success)) running }
  · rcases decided barrier last with ⟨data, covered⟩ | fails
    · exact .inr (.inl ⟨data, covers covered⟩)
    · exact .inr (.inr fails)
  · rcases inv.hard forced with ⟨barrier, data, covered⟩ | fails
    · exact .inl ⟨barrier, data, covers covered⟩
    · exact .inr fails
  · have safe : ¬s.Doomed plan := by
      intro fails
      have failed : Phase.failed = .finished := fails.runPhase.symm.trans finished
      cases failed
    rcases inv.stopped stopped with forced | ⟨barrier, last⟩
    · rcases inv.hard forced with ⟨barrier, data, covered⟩ | fails
      · exact ⟨barrier, data, covers covered⟩
      · exact absurd fails safe
    · rcases decided barrier last with ⟨data, covered⟩ | fails
      · exact ⟨barrier, data, covers covered⟩
      · exact absurd fails safe

theorem Inv.promote (inv : s.Inv plan) {put : Bool} (moves : s.step plan (.promote put) = some t) :
    t.Inv plan := by
  simp only [step] at moves
  split at moves
  · cases moves
  next ends =>
    push Not at ends
    obtain ⟨terminal, silent⟩ := ends
    split at moves
    next unasked =>
      cases moves
      refine { inv with exited := fun _ => terminal, success := fun _ asked => ?_ }
      change s.request.isSome = true at asked
      rw [unasked] at asked
      cases asked
    next label asked =>
      have opened : ∀ {barrier data}, s.Covered plan barrier data →
          plan.tight.Restored data (s.disk.run (plan.reopened.maintain s.disk)) := fun covered =>
        ((FileStorage.robust_restored (Nat.min_le_right ..) _).maintain covered.restored).ends
      have le : plan.tight.retainCompleted ≤ plan.reopened.retainCompleted := Nat.min_le_right ..
      have creates : ∀ {barrier data}, s.Covered plan barrier data → _ := fun covered =>
        covered.restored.createSavepoint le put
      cases result : plan.reopened.createSavepoint s.disk put with
      | mk steps savepoint =>
        simp only [result] at moves
        cases moves
        obtain ⟨place, hard, finished⟩ := inv.carry (s.disk.run steps) fun covered => by
          obtain ⟨rfl, -⟩ := Prod.ext_iff.1 (result.symm.trans (creates covered))
          exact opened covered
        have idle := (inv.settled terminal).1
        refine { inv with
          place
          hard
          held := fun data working => ?_
          settled := fun _ => inv.settled terminal
          finished := fun ends => ?_
          exited := fun _ => ?_
          success := fun success _ => ?_ }
        · change s.worker = .commit data ∨ s.worker = .complete data at working
          simp [idle] at working
        · refine finished ?_
          cases savepoint with
          | none => cases ends
          | some archive => exact ends
        · cases savepoint with
          | none => rfl
          | some archive => exact terminal
        · cases savepoint with
          | none => cases success
          | some archive =>
            have phase : s.phase = .finished := by
              cases phase : s.phase with
              | finished => rfl
              | running | cancelling => simp [phase, Phase.terminal] at terminal
              | failed => simp [phase, code] at success
            obtain ⟨barrier, data, covered⟩ := inv.finished phase
            obtain ⟨held, archived, saved⟩ := FileStorage.savedRecord_archiveCheckpoint
              (opened covered).stored (opened covered).done
            have same := congrArg Prod.snd ((creates covered).symm.trans result)
            cases put with
            | false => cases same
            | true =>
              obtain rfl : held = archive := some.inj (archived.symm.trans same)
              exact ⟨barrier, data, held, covered.closing, (inv.kind barrier covered.closing).2,
                rfl,
                saved, covered.id, covered.source⟩

theorem Inv.step (inv : s.Inv plan) {action : ServeAction π ν} (orderly : s.Orderly plan action)
    (moves : s.step plan action = some t) : t.Inv plan := by
  cases action with
  | cancel =>
    obtain ⟨running, rfl⟩ := of_ite_none moves
    exact inv.cancelled running s.request
  | requestSavepoint label =>
    obtain ⟨running, rfl⟩ := of_ite_none moves
    exact inv.cancelled running (some label)
  | writeState id path =>
    obtain ⟨running, rfl⟩ := of_ite_none moves
    exact inv.writeState id path
  | tick offsets =>
    obtain ⟨running, rfl⟩ := of_ite_none moves
    have injected := inv.inject running (s.checkpointID + 1) (s.nextBarrier plan .periodic offsets)
      false fun never => Bool.noConfusion never
    rw [← (inv.open running).1, ← Bool.eq_false_of_not_eq_true running,
      if_neg running] at injected
    exact injected
  | close kind offsets =>
    simp only [Serving.step, ite_none_left_eq_some, some.injEq, not_or] at moves
    obtain ⟨⟨running, real, -⟩, rfl⟩ := moves
    exact inv.inject running (s.checkpointID + 1) (s.nextBarrier plan kind offsets) true fun _ =>
      real
  | giveUp =>
    obtain ⟨forced, rfl⟩ := of_ite_some moves
    refine { inv with
      kind := fun barrier last => ⟨rfl, (inv.kind barrier last).2⟩
      stopped := fun _ => .inl forced
      settled := fun terminal => ?_ }
    obtain ⟨worker, upstream, prepared, -⟩ := inv.settled terminal
    exact ⟨worker, upstream, prepared, rfl⟩
  | save state stateDirs now fails => exact inv.save orderly moves
  | prepare state stateDirs sinkErr => exact inv.prepare moves
  | dequeue => exact inv.dequeue moves
  | persist now fails => exact inv.persist moves
  | commit failure => exact inv.commit orderly moves
  | complete fails => exact inv.complete orderly moves
  | drop =>
    simp only [Serving.step] at moves
    split at moves
    next first rest forced upstream =>
      cases moves
      have busy : s.Busy := .inl (by simp [upstream])
      refine inv.moves busy (fun _ _ _ => .inr (.inr ?_)) (fun doomed => doomed)
        inv.canceled inv.coordinated inv.held
      rcases inv.hard forced with ⟨barrier, data, covered⟩ | fails
      · exact (busy.not_covered covered).elim
      · exact fails
    next => cases moves
  | timeout =>
    obtain ⟨cancelled, rfl⟩ := of_ite_some moves
    have forced := inv.forced [] (.inl orderly)
    rw [append_nil] at forced
    exact forced
  | stageFails failure =>
    obtain ⟨running, rfl⟩ := of_ite_none moves
    refine inv.forced [failure] ?_
    cases failure with
    | other => exact .inr (.inl ⟨.other, by simp, fun same => Fault.noConfusion same⟩)
    | canceled =>
      refine (inv.hard (orderly rfl)).imp_right fun doomed => ?_
      rcases doomed with ⟨failure, mem, real⟩ | fatal
      · exact .inl ⟨failure, mem_append_left _ mem, real⟩
      · exact .inr fatal
  | unwind =>
    obtain ⟨reported, rfl⟩ := of_ite_some moves
    have safe : (∃ barrier data, s.Covered plan barrier data) ∨ s.Doomed plan := by
      obtain ⟨failure, fatal⟩ := isSome_iff_exists.1 reported
      cases failure with
      | canceled => exact inv.hard (inv.canceled fatal)
      | other =>
        refine .inr (.inr ⟨?_, fatal⟩)
        by_contra alone
        have silent := (inv.coordinated (Bool.eq_false_of_not_eq_true alone)).2.2
        cases fatal.symm.trans silent
    have forced := inv.forced [] (by rw [append_nil]; exact safe)
    rw [append_nil] at forced
    exact forced
  | finish =>
    simp only [Serving.step] at moves
    split at moves
    next worker =>
      simp only [ite_none_left_eq_some, some.injEq] at moves
      obtain ⟨ends, rfl⟩ := moves
      rw [not_or, not_or, not_not, not_not] at ends
      obtain ⟨running, stopped, drained⟩ := ends
      refine inv.finish worker stopped (drained.imp_right fun empty => ?_) running
      exact ⟨List.isEmpty_iff.1 empty.1, List.isEmpty_iff.1 empty.2⟩
    next => cases moves
  | promote put => exact inv.promote moves

theorem inv_start (plan : ServePlan π ν) (disk : Disk π ν) : Inv plan { disk } := by
  constructor <;> simp [Phase.terminal]

theorem inv_of_reach {disk : Disk π ν} (reach : Reach (step plan) (Orderly plan) { disk } s) :
    s.Inv plan := by
  induction reach with
  | refl => exact inv_start plan disk
  | tail action _ orderly moves ih => exact ih.step orderly moves

def servePlan (coordinated : Bool) : ServePlan Unit Unit := ⟨FileStorage.keepOne, coordinated, 7⟩

def savepointID (s : Serving Unit Unit) : Option CheckpointID :=
  (s.savepoint.bind savedRecord).map fun data => data.id

end Serving

end Weibo.Engine
