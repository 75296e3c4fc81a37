import Weibo.Lib.Transition
import Weibo.Operator.JoinRuns

/-!
# How a native join run ends

`executeNativeJoin` starts two source goroutines that feed `mux`, the join goroutine from `mux` to
`joined`, the barrier injector, and the stages, the first of which reads through
`joinedChannelSource`. It waits for the stages, then for the join.
-/

namespace Weibo.Engine

open Function Bool

open Transition (Reach)

/-- An error, as far as `Execute` tells errors apart. -/
inductive Fault
  | canceled
  | other
  deriving DecidableEq

abbrev Outcome := Option Fault

structure JoinPlan where
  edgeCapacity : Nat
  positive : 0 < edgeCapacity
  checkpointing : Bool
  stages : Nat
  records : Side → Option Nat

def internalBuf : Nat := 256

structure RunningSource where
  remaining : Option Nat
  ended : Option Outcome := none
  raw : Nat := 0
  sending : Bool := false
  returned : Bool := false

structure RunningJoin where
  pending : Nat := 0
  panics : Bool := false
  done : Option Outcome := none

structure RunningInjector where
  holding : Bool := false
  last : Bool := false
  draining : Bool := false
  returned : Bool := false

structure RunningAdapter where
  holding : Bool := false
  returned : Bool := false

structure RunningFirst where
  sending : Bool := false
  returned : Option Outcome := none

structure RunningStage where
  pending : Nat := 0
  closing : Bool := false
  returned : Option Outcome := none

/-- `SinkStage.Run` and the goroutine of the sink's `Write`. -/
structure RunningSink where
  pumping : Bool := true
  aligning : Bool := false
  holding : Bool := false
  pumped : Nat := 0
  closing : Bool := false
  written : Option Outcome := none
  returned : Option Outcome := none

/-- A state of `executeNativeJoin`. -/
structure JoinRun where
  ctx : Bool := false
  hard : Bool := false
  errCh : List Fault := []
  source : Side → RunningSource
  mux : Nat := 0
  muxClosed : Bool := false
  join : RunningJoin := {}
  joined : Nat := 0
  injector : RunningInjector := {}
  out : Nat := 0
  adapter : RunningAdapter := {}
  raw : Nat := 0
  first : RunningFirst := {}
  stage : Nat → RunningStage := fun _ => {}
  edge : Nat → Nat := fun _ => 0
  sink : RunningSink := {}
  joining : Bool := false
  result : Option Outcome := none

inductive SinkRecord
  | data
  | dropped
  | barrier
  deriving DecidableEq

inductive JoinRunAction
  | cancel
  | timeout
  | srcEmit (side : Side)
  | srcReturn (side : Side) (e : Outcome)
  | wrapTake (side : Side)
  | wrapPut (side : Side)
  | wrapAbort (side : Side)
  | wrapEnd (side : Side)
  | closeMux
  | joinTake (makes : Nat) (panics : Bool)
  | joinWrite
  | joinEnd
  | joinPanic
  | injTake
  | injForward
  | injTick
  | injShutdown
  | injClosed
  | injAbort
  | adapterTake
  | adapterPut
  | adapterEnd
  | adapterCancel
  | firstTake
  | firstSend
  | firstAbort
  | firstEnd
  | drain
  | opTake (i makes : Nat)
  | opClose (i makes : Nat)
  | opSend (i : Nat)
  | opEnd (i : Nat)
  | opFail (i : Nat)
  | opAbort (i : Nat)
  | sinkTake (kind : SinkRecord)
  | sinkAligned
  | sinkPut
  | sinkDead
  | sinkHard
  | sinkClosed
  | sinkDone
  | writeTake
  | writeEnd
  | writeReturn (e : Outcome)
  | mainStages
  | mainReturn

namespace JoinRun

def start (plan : JoinPlan) : JoinRun where
  source side := { remaining := plan.records side }

/-- A goroutine reports what it has returned, if `errCh` has room. -/
def report (errCh : List Fault) : Outcome → List Fault
  | none => errCh
  | some e => if errCh.length < 8 then errCh ++ [e] else errCh

def input (plan : JoinPlan) (s : JoinRun) : Nat := if plan.checkpointing then s.out else s.joined

def inputClosed (plan : JoinPlan) (s : JoinRun) : Prop :=
  if plan.checkpointing then s.injector.returned = true else s.join.done ≠ none

def upstream (s : JoinRun) : Nat → Prop
  | 0 => s.first.returned ≠ none
  | i + 1 => (s.stage i).returned ≠ none

def allReturned (plan : JoinPlan) (s : JoinRun) : Prop :=
  s.first.returned ≠ none ∧ (∀ i < plan.stages, (s.stage i).returned ≠ none) ∧
    s.sink.returned ≠ none

instance (plan : JoinPlan) (s : JoinRun) : Decidable (s.inputClosed plan) := by
  unfold inputClosed
  infer_instance

instance (s : JoinRun) : (i : Nat) → Decidable (s.upstream i)
  | 0 => inferInstanceAs (Decidable (s.first.returned ≠ none))
  | i + 1 => inferInstanceAs (Decidable ((s.stage i).returned ≠ none))

instance (plan : JoinPlan) (s : JoinRun) : Decidable (s.allReturned plan) := by
  unfold allReturned
  infer_instance

def enabled (plan : JoinPlan) (s : JoinRun) : JoinRunAction → Prop
  | .cancel => True
  | .timeout => s.ctx = true ∧ s.joining = false
  | .srcEmit d =>
    (s.source d).ended = none ∧ (s.source d).raw < internalBuf ∧ (s.source d).remaining ≠ some 0
  | .srcReturn d e => (s.source d).ended = none ∧ (e = none → (s.source d).remaining = some 0) ∧
    (e = some .canceled → s.ctx = true)
  | .wrapTake d =>
    (s.source d).returned = false ∧ (s.source d).sending = false ∧ 0 < (s.source d).raw
  | .wrapPut d =>
    (s.source d).returned = false ∧ (s.source d).sending = true ∧ s.mux < plan.edgeCapacity
  | .wrapAbort d => (s.source d).returned = false ∧ s.hard = true
  | .wrapEnd d => (s.source d).returned = false ∧ (s.source d).sending = false ∧
    (s.source d).raw = 0 ∧ (s.source d).ended ≠ none
  | .closeMux => (s.source .left).returned = true ∧ (s.source .right).returned = true
  | .joinTake _ _ => s.join.done = none ∧ s.join.pending = 0 ∧ s.join.panics = false ∧ 0 < s.mux
  | .joinWrite => s.join.done = none ∧ 0 < s.join.pending ∧ s.joined < plan.edgeCapacity
  | .joinEnd => s.join.done = none ∧ s.join.pending = 0 ∧ s.join.panics = false ∧ s.mux = 0 ∧
    s.muxClosed = true
  | .joinPanic => s.join.done = none ∧ s.join.pending = 0 ∧ s.join.panics = true
  | .injTake => plan.checkpointing = true ∧ s.injector.returned = false ∧
    s.injector.holding = false ∧ 0 < s.joined
  | .injForward => plan.checkpointing = true ∧ s.injector.returned = false ∧
    s.injector.holding = true ∧ s.out < internalBuf
  | .injTick => plan.checkpointing = true ∧ s.injector.returned = false ∧
    s.injector.holding = false ∧ s.injector.draining = false
  | .injShutdown => plan.checkpointing = true ∧ s.injector.returned = false ∧
    s.injector.holding = false ∧ s.injector.draining = false ∧ s.ctx = true
  | .injClosed => plan.checkpointing = true ∧ s.injector.returned = false ∧
    s.injector.holding = false ∧ s.joined = 0 ∧ s.join.done ≠ none
  | .injAbort => plan.checkpointing = true ∧ s.injector.returned = false ∧
    s.injector.holding = true ∧ s.hard = true
  | .adapterTake => s.adapter.returned = false ∧ s.adapter.holding = false ∧ 0 < s.input plan
  | .adapterPut => s.adapter.returned = false ∧ s.adapter.holding = true ∧ s.raw < internalBuf
  | .adapterEnd => s.adapter.returned = false ∧ s.adapter.holding = false ∧ s.input plan = 0 ∧
    s.inputClosed plan
  | .adapterCancel => s.adapter.returned = false ∧ s.ctx = true
  | .firstTake => s.first.returned = none ∧ s.first.sending = false ∧ 0 < s.raw
  | .firstSend => s.first.returned = none ∧ s.first.sending = true ∧ s.edge 0 < plan.edgeCapacity
  | .firstAbort => s.first.returned = none ∧ s.hard = true
  | .firstEnd => s.first.returned = none ∧ s.first.sending = false ∧ s.raw = 0 ∧
    s.adapter.returned = true
  | .drain => s.first.returned ≠ none ∧ 0 < s.raw
  | .opTake i _ => i < plan.stages ∧ (s.stage i).returned = none ∧ (s.stage i).pending = 0 ∧
    (s.stage i).closing = false ∧ 0 < s.edge i
  | .opClose i _ => i < plan.stages ∧ (s.stage i).returned = none ∧ (s.stage i).pending = 0 ∧
    (s.stage i).closing = false ∧ s.edge i = 0 ∧ s.upstream i
  | .opSend i => i < plan.stages ∧ (s.stage i).returned = none ∧ 0 < (s.stage i).pending ∧
    s.edge (i + 1) < plan.edgeCapacity
  | .opEnd i => i < plan.stages ∧ (s.stage i).returned = none ∧ (s.stage i).pending = 0 ∧
    (s.stage i).closing = true
  | .opFail i => i < plan.stages ∧ (s.stage i).returned = none
  | .opAbort i => i < plan.stages ∧ (s.stage i).returned = none ∧ s.hard = true
  | .sinkTake kind => s.sink.returned = none ∧ s.sink.closing = false ∧ s.sink.aligning = false ∧
    s.sink.holding = false ∧ 0 < s.edge plan.stages ∧ (kind = .barrier → plan.checkpointing = true)
  | .sinkAligned => s.sink.returned = none ∧ s.sink.aligning = true ∧ s.sink.pumped = 0
  | .sinkPut => s.sink.returned = none ∧ s.sink.holding = true ∧ s.sink.pumped < internalBuf
  | .sinkDead => s.sink.returned = none ∧
    (s.sink.holding = true ∨ s.sink.aligning = true ∧ 0 < s.sink.pumped) ∧ s.sink.written ≠ none
  | .sinkHard => s.sink.returned = none ∧
    (s.sink.holding = true ∨ s.sink.aligning = true ∧ 0 < s.sink.pumped) ∧ s.hard = true
  | .sinkClosed => s.sink.returned = none ∧ s.sink.closing = false ∧ s.sink.aligning = false ∧
    s.sink.holding = false ∧ s.edge plan.stages = 0 ∧ s.upstream plan.stages
  | .sinkDone => s.sink.returned = none ∧ s.sink.closing = true ∧ s.sink.written ≠ none
  | .writeTake => s.sink.written = none ∧ 0 < s.sink.pumped
  | .writeEnd => s.sink.written = none ∧ s.sink.pumped = 0 ∧ s.sink.closing = true
  | .writeReturn e => s.sink.written = none ∧ (e = some .canceled → s.hard = true)
  | .mainStages => s.joining = false ∧ s.allReturned plan
  | .mainReturn => s.joining = true ∧ s.result = none ∧ s.join.done ≠ none

def setSource (s : JoinRun) (d : Side) (source : RunningSource) : JoinRun :=
  { s with source := update s.source d source }

def setStage (s : JoinRun) (i : Nat) (stage : RunningStage) : JoinRun :=
  { s with stage := update s.stage i stage }

def setEdge (s : JoinRun) (i n : Nat) : JoinRun := { s with edge := update s.edge i n }

/-- What `Execute` returns when the join has returned without an error. -/
def firstError (errCh : List Fault) : Outcome :=
  match errCh with
  | .other :: _ => some .other
  | _ => none

def effect (plan : JoinPlan) (s : JoinRun) : JoinRunAction → JoinRun
  | .cancel => { s with ctx := true }
  | .timeout => { s with hard := true }
  | .srcEmit d => s.setSource d { s.source d with
      raw := (s.source d).raw + 1, remaining := (s.source d).remaining.map (· - 1) }
  | .srcReturn d e => s.setSource d { s.source d with ended := some e }
  | .wrapTake d => s.setSource d { s.source d with raw := (s.source d).raw - 1, sending := true }
  | .wrapPut d => { s.setSource d { s.source d with sending := false } with mux := s.mux + 1 }
  | .wrapAbort d => { s.setSource d { s.source d with returned := true } with
      errCh := if s.ctx then s.errCh else report s.errCh (some .canceled) }
  | .wrapEnd d =>
    if (s.source d).ended = some (some .other) then
      { s.setSource d { s.source d with returned := true } with
        errCh := report s.errCh (some .other), hard := true }
    else s.setSource d { s.source d with returned := true }
  | .closeMux => { s with muxClosed := true }
  | .joinTake makes panics => { s with
      mux := s.mux - 1, join := { s.join with pending := makes, panics } }
  | .joinWrite => { s with
      joined := s.joined + 1, join := { s.join with pending := s.join.pending - 1 } }
  | .joinEnd => { s with join := { s.join with done := some none } }
  | .joinPanic => { s with join := { s.join with done := some (some .other) } }
  | .injTake => { s with joined := s.joined - 1, injector := { s.injector with holding := true } }
  | .injForward => { s with
      out := s.out + 1
      injector := { s.injector with holding := false, returned := s.injector.last } }
  | .injTick => { s with injector := { s.injector with holding := true } }
  | .injShutdown => { s with injector := { s.injector with holding := true, draining := true } }
  | .injClosed =>
    if s.injector.draining then { s with injector := { s.injector with returned := true } }
    else { s with injector := { s.injector with holding := true, last := true } }
  | .injAbort => { s with injector := { s.injector with returned := true } }
  | .adapterTake =>
    if plan.checkpointing then
      { s with out := s.out - 1, adapter := { s.adapter with holding := true } }
    else { s with joined := s.joined - 1, adapter := { s.adapter with holding := true } }
  | .adapterPut => { s with raw := s.raw + 1, adapter := { s.adapter with holding := false } }
  | .adapterEnd => { s with adapter := { s.adapter with returned := true } }
  | .adapterCancel => { s with adapter := { s.adapter with returned := true } }
  | .firstTake => { s with raw := s.raw - 1, first := { s.first with sending := true } }
  | .firstSend => { s.setEdge 0 (s.edge 0 + 1) with first := { s.first with sending := false } }
  | .firstAbort => { s with
      first := { s.first with returned := some (some .canceled) }
      errCh := report s.errCh (some .canceled) }
  | .firstEnd => { s with first := { s.first with returned := some none } }
  | .drain => { s with raw := s.raw - 1 }
  | .opTake i makes => (s.setEdge i (s.edge i - 1)).setStage i { s.stage i with pending := makes }
  | .opClose i makes => s.setStage i { s.stage i with pending := makes, closing := true }
  | .opSend i => (s.setEdge (i + 1) (s.edge (i + 1) + 1)).setStage i
      { s.stage i with pending := (s.stage i).pending - 1 }
  | .opEnd i => s.setStage i { s.stage i with returned := some none }
  | .opFail i => { s.setStage i { s.stage i with returned := some (some .other) } with
      errCh := report s.errCh (some .other) }
  | .opAbort i => { s.setStage i { s.stage i with returned := some (some .canceled) } with
      errCh := report s.errCh (some .canceled) }
  | .sinkTake kind => { s.setEdge plan.stages (s.edge plan.stages - 1) with
      sink := { s.sink with
        aligning := s.sink.pumping && kind = .barrier, holding := s.sink.pumping && kind = .data } }
  | .sinkAligned => { s with sink := { s.sink with aligning := false } }
  | .sinkPut => { s with sink := { s.sink with holding := false, pumped := s.sink.pumped + 1 } }
  | .sinkDead => { s with
      sink := { s.sink with returned := s.sink.written }
      errCh := report s.errCh (s.sink.written.getD none) }
  | .sinkHard =>
    { s with sink := { s.sink with pumping := false, holding := false, aligning := false } }
  | .sinkClosed => { s with sink := { s.sink with closing := true } }
  | .sinkDone => { s with
      sink := { s.sink with returned := s.sink.written }
      errCh := report s.errCh (s.sink.written.getD none) }
  | .writeTake => { s with sink := { s.sink with pumped := s.sink.pumped - 1 } }
  | .writeEnd => { s with sink := { s.sink with written := some none } }
  | .writeReturn e => { s with sink := { s.sink with written := some e } }
  | .mainStages => { s with joining := true }
  | .mainReturn => { s with result := some ((s.join.done.getD none).or (firstError s.errCh)) }

instance (plan : JoinPlan) (s : JoinRun) (a : JoinRunAction) : Decidable (enabled plan s a) := by
  cases a <;> unfold enabled <;> infer_instance

def step (plan : JoinPlan) (s : JoinRun) (a : JoinRunAction) : Option JoinRun :=
  if enabled plan s a then some (effect plan s a) else none

/-! ## Returning -/

/-- A stage or the sink has returned the fault. -/
def FailedWith (plan : JoinPlan) (s : JoinRun) (e : Fault) : Prop :=
  s.first.returned = some (some e) ∨ (∃ i < plan.stages, (s.stage i).returned = some (some e)) ∨
    s.sink.returned = some (some e)

/-- The transitions that need no help from outside: the caller does not cancel, and no source, no
stage, no sink and no join function fails. -/
def Ordinary : JoinRunAction → Prop
  | .cancel | .srcReturn _ (some .other) | .joinTake _ true | .opFail _ => False
  | .writeReturn e => e = some .canceled
  | _ => True

/-- `Execute` can still return without help from outside. -/
def CanReturn (plan : JoinPlan) (s : JoinRun) : Prop :=
  ∃ t, Reach (step plan) (fun _ a => Ordinary a) s t ∧ t.result ≠ none

/-- What reads `joined` has returned, or what reads that. -/
def gone (plan : JoinPlan) (s : JoinRun) : Prop :=
  s.adapter.returned = true ∨ plan.checkpointing = true ∧ s.injector.returned = true

instance (plan : JoinPlan) (s : JoinRun) : Decidable (s.gone plan) := by
  unfold gone
  infer_instance

/-- The condition for `Execute` not to hang: what the join makes once nothing reads `joined` any
more fits into it, and stages do not fail before some context is cancelled. -/
def Unblocked (plan : JoinPlan) (s : JoinRun) : JoinRunAction → Prop
  | .joinTake makes _ => s.gone plan → makes + s.joined ≤ plan.edgeCapacity
  | .adapterCancel | .injAbort => s.join.pending + s.joined ≤ plan.edgeCapacity
  | .opFail _ => s.ctx = true ∨ s.hard = true
  | .sinkDead => s.sink.written = some (some .other) → s.ctx = true ∨ s.hard = true
  | _ => True

/-- A stage or sink that fails does so before a cancellation is reported. -/
def FirstToReport (s : JoinRun) : JoinRunAction → Prop
  | .opFail _ => s.errCh.head? ≠ some .canceled
  | .sinkDead | .sinkDone => s.sink.written = some (some .other) → s.errCh.head? ≠ some .canceled
  | _ => True

instance (plan : JoinPlan) (s : JoinRun) (a : JoinRunAction) : Decidable (Unblocked plan s a) := by
  cases a <;> unfold Unblocked <;> infer_instance

instance (s : JoinRun) (a : JoinRunAction) : Decidable (FirstToReport s a) := by
  cases a <;> unfold FirstToReport <;> infer_instance

/-! ## What holds on the way from the join to the first stage -/

/-- The join is not left with more than `joined` takes, and nothing on the way to the first
stage returns early without a cancellation. -/
structure Drains (plan : JoinPlan) (s : JoinRun) : Prop where
  bounded : s.joined ≤ plan.edgeCapacity
  fits : s.gone plan → s.join.pending + s.joined ≤ plan.edgeCapacity
  silent : s.join.done ≠ none → s.join.pending = 0
  last : s.injector.last = true → s.join.done ≠ none
  injected : s.injector.returned = true → s.hard = true ∨ s.join.done ≠ none
  adapted : s.adapter.returned = true → s.ctx = true ∨ s.hard = true ∨ s.join.done ≠ none
  first : s.first.returned ≠ none → s.hard = true ∨ s.adapter.returned = true

variable {plan : JoinPlan} {s t : JoinRun}

variable {a : JoinRunAction}

theorem step_eq_some : step plan s a = some t ↔ enabled plan s a ∧ effect plan s a = t := by
  simp [step]

theorem Drains.step (drains : Drains plan s) (unblocked : Unblocked plan s a)
    (possible : enabled plan s a) : Drains plan (effect plan s a) := by
  have bounded := drains.bounded
  have fits := drains.fits
  have silent := drains.silent
  have last := drains.last
  have injected := drains.injected
  have adapted := drains.adapted
  have first := drains.first
  cases a with
  | cancel => exact { drains with adapted := fun _ => .inl rfl }
  | timeout =>
    exact { drains with
      injected := fun _ => .inl rfl, adapted := fun _ => .inr (.inl rfl)
      first := fun _ => .inl rfl }
  | wrapEnd d =>
    simp only [effect]
    split
    · exact { drains with
        injected := fun _ => .inl rfl, adapted := fun _ => .inr (.inl rfl)
        first := fun _ => .inl rfl }
    · exact { drains with }
  | joinTake makes panics =>
    obtain ⟨running, -⟩ := possible
    exact ⟨bounded, unblocked, fun ended => absurd running ended, last, injected, adapted, first⟩
  | joinWrite =>
    obtain ⟨running, more, room⟩ := possible
    refine ⟨room, fun nobody => ?_, fun ended => absurd running ended, last, injected, adapted,
      first⟩
    have fitting := fits nobody
    simp only [effect]
    omega
  | joinEnd | joinPanic =>
    obtain ⟨-, written, -⟩ := possible
    refine ⟨bounded, fits, fun _ => written, fun _ => ?_, fun _ => .inr ?_, fun _ => .inr (.inr ?_),
      first⟩ <;> simp [effect]
  | injTake =>
    refine ⟨Nat.le_trans (Nat.sub_le _ _) bounded, fun nobody => ?_, silent, last, injected,
      adapted,
      first⟩
    have fitting := fits nobody
    simp only [effect]
    omega
  | injForward =>
    refine ⟨bounded, fun nobody => ?_, silent, last, fun is => .inr (last is), adapted, first⟩
    rcases nobody with adapter | ⟨-, final⟩
    · exact fits (.inl adapter)
    · -- the final barrier is forwarded when the join has returned
      have written := silent (last final)
      simp only [effect]
      omega
  | injClosed =>
    obtain ⟨-, running, -, -, ended⟩ := possible
    simp only [effect]
    split
    · have written := silent ended
      refine ⟨bounded, fun _ => ?_, silent, last, fun _ => .inr ended, adapted, first⟩
      show s.join.pending + s.joined ≤ plan.edgeCapacity
      omega
    · exact ⟨bounded, fits, silent, fun _ => ended, injected, adapted, first⟩
  | injAbort =>
    obtain ⟨-, -, -, hard⟩ := possible
    exact ⟨bounded, fun _ => unblocked, silent, last, fun _ => .inl hard, adapted, first⟩
  | adapterTake =>
    obtain ⟨running, -, -⟩ := possible
    simp only [effect]
    split
    · exact ⟨bounded, fits, silent, last, injected, adapted, first⟩
    · refine ⟨Nat.le_trans (Nat.sub_le _ _) bounded, fun nobody => ?_, silent, last, injected,
        adapted,
        first⟩
      have fitting := fits nobody
      show s.join.pending + (s.joined - 1) ≤ plan.edgeCapacity
      omega
  | adapterEnd =>
    obtain ⟨-, -, -, closed⟩ := possible
    simp only [inputClosed] at closed
    split at closed
    next checkpointing =>
      exact ⟨bounded, fun _ => fits (.inr ⟨checkpointing, closed⟩), silent, last, injected,
        fun _ => .inr (injected closed), fun _ => .inr rfl⟩
    · have written := silent closed
      refine ⟨bounded, fun _ => ?_, silent, last, injected, fun _ => .inr (.inr closed),
        fun _ => .inr rfl⟩
      show s.join.pending + s.joined ≤ plan.edgeCapacity
      omega
  | adapterCancel =>
    obtain ⟨-, ctx⟩ := possible
    exact ⟨bounded, fun _ => unblocked, silent, last, injected, fun _ => .inl ctx,
      fun _ => .inr rfl⟩
  | firstAbort =>
    obtain ⟨-, hard⟩ := possible
    exact ⟨bounded, fits, silent, last, injected, adapted, fun _ => .inl hard⟩
  | firstEnd =>
    obtain ⟨-, -, -, ended⟩ := possible
    exact ⟨bounded, fits, silent, last, injected, adapted, fun _ => .inr ended⟩
  | _ => exact { drains with }

/-! ## What holds of the stages -/

structure Ordered (plan : JoinPlan) (s : JoinRun) : Prop where
  closing : ∀ i < plan.stages, (s.stage i).closing = true → s.upstream i
  stages :
    ∀ i < plan.stages, (s.stage i).returned ≠ none → s.ctx = true ∨ s.hard = true ∨ s.upstream i
  failed :
    ∀ i < plan.stages, ∀ e, (s.stage i).returned = some (some e) → s.ctx = true ∨ s.hard = true
  first : ∀ e, s.first.returned = some (some e) → s.hard = true
  sinkClosing : s.sink.closing = true → s.upstream plan.stages
  sink :
    ∀ e, s.sink.returned = some (some e) → s.ctx = true ∨ s.hard = true ∨ s.upstream plan.stages
  written : s.sink.written = some (some .canceled) → s.hard = true
  joining : s.joining = true → s.allReturned plan
  result : s.result ≠ none → s.joining = true

theorem upstream_mono (first : s.first.returned ≠ none → t.first.returned ≠ none)
    (stage : ∀ i, (s.stage i).returned ≠ none → (t.stage i).returned ≠ none) (i : Nat)
    (returned : s.upstream i) : t.upstream i := by
  cases i with
  | zero => exact first returned
  | succ i => exact stage i returned

variable {i : Nat}

theorem returned_setStage {stage : RunningStage} (returned : stage.returned = (s.stage i).returned)
    (j : Nat) : ((s.setStage i stage).stage j).returned = (s.stage j).returned := by
  by_cases same : j = i
  · subst same
    simp [setStage, returned]
  · simp [setStage, same]

/-- A running stage that returns nothing closes only behind one that has returned. -/
theorem Ordered.restage (ordered : Ordered plan s) (edge : Nat → Nat) {stage : RunningStage}
    (returned : stage.returned = (s.stage i).returned) (closing : i < plan.stages →
    stage.closing = true → s.upstream i) : Ordered plan { s.setStage i stage with edge } := by
  have same := returned_setStage returned
  have up : upstream { s.setStage i stage with edge } = s.upstream := by
    funext j
    cases j with
    | zero => rfl
    | succ j => simp [upstream, same]
  refine { ordered with
    closing := fun j inside closes => ?_
    stages := fun j inside => ?_
    failed := fun j inside e is => ordered.failed j inside e (same j ▸ is)
    sinkClosing := up ▸ ordered.sinkClosing
    sink := up ▸ ordered.sink
    joining :=
      fun waits => (ordered.joining waits).imp_right (And.imp_left fun all j inside => ?_) }
  · rw [up]
    by_cases eq : j = i
    · subst eq
      exact closing inside (by simpa [setStage] using closes)
    · exact ordered.closing j inside (by simpa [setStage, eq] using closes)
  · rw [up, same]
    exact ordered.stages j inside
  · rw [same]
    exact all j inside

variable {o : Outcome}

theorem Ordered.stageReturns (ordered : Ordered plan s) (errCh : List Fault)
    (bound : i < plan.stages) (running : (s.stage i).returned = none) (reason : s.ctx = true ∨
    s.hard = true ∨ s.upstream i) (error : ∀ e, o = some e → s.ctx = true ∨ s.hard = true) :
    Ordered plan { s.setStage i { s.stage i with returned := some o } with errCh } := by
  have later : ∀ j, (s.stage j).returned ≠ none →
      ((s.setStage i { s.stage i with returned := some o }).stage j).returned ≠ none := by
    intro j returned
    by_cases same : j = i
    · subst same
      simp [setStage]
    · simpa [setStage, same] using returned
  have up : ∀ j, s.upstream j →
      upstream { s.setStage i { s.stage i with returned := some o } with errCh } j :=
    upstream_mono (fun returned => returned) later
  refine ⟨fun j inside closing => ?_, fun j inside returned => ?_, fun j inside e failed => ?_,
    ordered.first, fun closing => up _ (ordered.sinkClosing closing), fun e failed => ?_,
    ordered.written, fun joining => ?_, ordered.result⟩
  · by_cases same : j = i
    · subst same
      exact up _ (ordered.closing j inside (by simpa [setStage] using closing))
    · exact up _ (ordered.closing j inside (by simpa [setStage, same] using closing))
  · by_cases same : j = i
    · subst same
      exact reason.imp_right (Or.imp_right (up j))
    · exact (ordered.stages j inside (by simpa [setStage, same] using returned)).imp_right
        (Or.imp_right (up j))
  · by_cases same : j = i
    · subst same
      exact error e (by simpa [setStage] using failed)
    · exact ordered.failed j inside e (by simpa [setStage, same] using failed)
  · exact (ordered.sink e failed).imp_right (Or.imp_right (up _))
  · -- `Execute` does not wait for the join while a stage is running
    exact absurd running ((ordered.joining joining).2.1 i bound)

theorem Ordered.firstReturns (ordered : Ordered plan s) (errCh : List Fault)
    (running : s.first.returned = none) (error : ∀ e, o = some e → s.hard = true) :
    Ordered plan { s with first := { s.first with returned := some o }, errCh } := by
  have up :
    ∀ j, s.upstream j → upstream { s with first := { s.first with returned := some o }, errCh } j :=
    upstream_mono (fun _ => by simp) fun _ returned => returned
  exact ⟨fun j inside closing => up _ (ordered.closing j inside closing),
    fun j inside returned => (ordered.stages j inside returned).imp_right (Or.imp_right (up j)),
    ordered.failed, fun e failed => error e (by simpa using failed),
    fun closing => up _ (ordered.sinkClosing closing),
    fun e failed => (ordered.sink e failed).imp_right (Or.imp_right (up _)), ordered.written,
    fun joining => absurd running (ordered.joining joining).1, ordered.result⟩

theorem Ordered.sinkReturns (ordered : Ordered plan s) (errCh : List Fault)
    (running : s.sink.returned = none) (error : ∀ e, s.sink.written = some (some e) → s.ctx = true ∨
    s.hard = true ∨ s.upstream plan.stages) : Ordered plan
    { s with sink := { s.sink with returned := s.sink.written }, errCh } :=
  ⟨ordered.closing, ordered.stages, ordered.failed, ordered.first, ordered.sinkClosing, error,
    ordered.written, fun joining => absurd running (ordered.joining joining).2.2, ordered.result⟩

theorem Ordered.harden (ordered : Ordered plan s) (errCh : List Fault)
    (source : Side → RunningSource) : Ordered plan { s with errCh, source, hard := true } :=
  { ordered with
    stages := fun _ _ _ => .inr (.inl rfl), failed := fun _ _ _ _ => .inr rfl
    first := fun _ _ => rfl
    sink := fun _ _ => .inr (.inl rfl), written := fun _ => rfl }

theorem Ordered.step (ordered : Ordered plan s) (unblocked : Unblocked plan s a)
    (possible : enabled plan s a) : Ordered plan (effect plan s a) := by
  cases a with simp only [effect]
  | cancel =>
    exact { ordered with
      stages := fun _ _ _ => .inl rfl, failed := fun _ _ _ _ => .inl rfl
      sink := fun _ _ => .inl rfl }
  | timeout => exact ordered.harden s.errCh s.source
  | wrapEnd d =>
    split
    · exact ordered.harden _ _
    · exact { ordered with }
  | injClosed | adapterTake =>
    split <;> exact { ordered with }
  | firstAbort =>
    obtain ⟨running, hard⟩ := possible
    exact ordered.firstReturns _ running fun _ _ => hard
  | firstEnd =>
    obtain ⟨running, -⟩ := possible
    exact ordered.firstReturns s.errCh running fun e is => nomatch is
  | opTake i | opSend i => exact ordered.restage _ rfl (ordered.closing i)
  | opClose i makes => exact ordered.restage s.edge rfl fun _ _ => possible.2.2.2.2.2
  | opEnd i =>
    obtain ⟨bound, running, -, closing⟩ := possible
    exact ordered.stageReturns s.errCh bound running (.inr (.inr (ordered.closing i bound closing)))
      fun e is => nomatch is
  | opFail i =>
    obtain ⟨bound, running⟩ := possible
    have canceled : s.ctx = true ∨ s.hard = true := unblocked
    exact ordered.stageReturns _ bound running (canceled.imp_right .inl) fun _ _ => canceled
  | opAbort i =>
    obtain ⟨bound, running, hard⟩ := possible
    exact ordered.stageReturns _ bound running (.inr (.inl hard)) fun _ _ => .inr hard
  | sinkDead =>
    obtain ⟨running, -, -⟩ := possible
    refine ordered.sinkReturns _ running fun e written => ?_
    cases e with
    | canceled => exact .inr (.inl (ordered.written written))
    | other => exact (unblocked written).imp_right .inl
  | sinkClosed =>
    obtain ⟨running, -, -, -, -, up⟩ := possible
    exact { ordered with
      sinkClosing := fun _ => up
      joining := fun joining => absurd running (ordered.joining joining).2.2 }
  | sinkDone =>
    obtain ⟨running, closing, -⟩ := possible
    exact ordered.sinkReturns _ running fun _ _ => .inr (.inr (ordered.sinkClosing closing))
  | writeEnd =>
    exact { ordered with written := fun is => (nomatch is) }
  | writeReturn e =>
    obtain ⟨-, canceled⟩ := possible
    exact { ordered with written := fun is => canceled (Option.some.inj is) }
  | mainStages =>
    obtain ⟨-, all⟩ := possible
    exact { ordered with joining := fun _ => all, result := fun _ => rfl }
  | mainReturn =>
    obtain ⟨joining, -⟩ := possible
    exact { ordered with result := fun _ => joining }
  | _ => exact { ordered with }

structure Inv (plan : JoinPlan) (s : JoinRun) : Prop where
  drains : Drains plan s
  ordered : Ordered plan s

theorem inv_start (plan : JoinPlan) : Inv plan (start plan) where
  drains := by constructor <;> simp [start, gone]
  ordered := by constructor <;> simp [start]

theorem Inv.step (inv : Inv plan s) (unblocked : Unblocked plan s a)
    (possible : enabled plan s a) : Inv plan (effect plan s a) :=
  ⟨inv.drains.step unblocked possible, inv.ordered.step unblocked possible⟩

theorem Ordered.all_upstream (ordered : Ordered plan s) (quiet : ¬(s.ctx = true ∨ s.hard = true))
    (inside : i ≤ plan.stages) (up : s.upstream i) :
    s.first.returned ≠ none ∧ ∀ j < i, (s.stage j).returned ≠ none := by
  induction i with
  | zero => exact ⟨up, by simp⟩
  | succ i ih =>
    have returned : (s.stage i).returned ≠ none := up
    have before : s.upstream i := by
      rcases ordered.stages i inside returned with ctx | hard | before
      · exact absurd (.inl ctx) quiet
      · exact absurd (.inr hard) quiet
      · exact before
    obtain ⟨first, earlier⟩ := ih (Nat.le_of_succ_le inside) before
    refine ⟨first, fun j below => ?_⟩
    rcases Nat.lt_succ_iff_lt_or_eq.1 below with less | rfl
    · exact earlier j less
    · exact returned

variable {e : Fault}

theorem Ordered.of_failed (ordered : Ordered plan s) (failed : FailedWith plan s e) :
    s.ctx = true ∨ s.hard = true ∨ s.allReturned plan := by
  by_cases canceled : s.ctx = true ∨ s.hard = true
  · exact canceled.imp_right .inl
  · refine .inr (.inr ?_)
    rcases failed with first | ⟨i, inside, stage⟩ | sink
    · exact absurd (.inr (ordered.first e first)) canceled
    · exact absurd (ordered.failed i inside e stage) canceled
    · rcases ordered.sink e sink with ctx | hard | up
      · exact absurd (.inl ctx) canceled
      · exact absurd (.inr hard) canceled
      · obtain ⟨first, stages⟩ := ordered.all_upstream canceled (Nat.le_refl _) up
        exact ⟨first, stages, by simp [sink]⟩

/-! ## The join returns once the stages have -/

/-- How far a source is from the end of `runJoinSource`. -/
def sourceRank (source : RunningSource) : Nat :=
  9 * source.raw + 8 * source.sending.toNat + source.ended.isNone.toNat + (!source.returned).toNat

def chainRank (s : JoinRun) : Nat :=
  5 * s.joined + 4 * s.injector.holding.toNat + 3 * s.out + 2 * s.adapter.holding.toNat + s.raw

/-- How far the join is from its end: each record weighs more the further it is from the end of
its way. -/
def joinRank (s : JoinRun) : Nat :=
  s.chainRank + 6 * s.join.pending + 7 * s.mux + sourceRank (s.source .left) +
    sourceRank (s.source .right) + (!s.muxClosed).toNat + s.join.done.isNone.toNat

/-- `Execute` waits for the join and a context is cancelled. -/
def Joining (plan : JoinPlan) (s : JoinRun) : Prop :=
  Inv plan s ∧ s.joining = true ∧ (s.ctx = true ∨ s.hard = true)

def Lowers (plan : JoinPlan) (s : JoinRun) : Prop :=
  ∃ a t, Ordinary a ∧ step plan s a = some t ∧ Joining plan t ∧ t.joinRank < s.joinRank

theorem lowers_of (joining : Joining plan s) (ordinary : Ordinary a)
    (unblocked : Unblocked plan s a) (possible : enabled plan s a)
    (waits : (effect plan s a).joining = s.joining) (ctx : (effect plan s a).ctx = s.ctx)
    (hard : s.hard = true → (effect plan s a).hard = true)
    (lower : (effect plan s a).joinRank < s.joinRank) : Lowers plan s :=
  ⟨a, _, ordinary, step_eq_some.2 ⟨possible, rfl⟩, ⟨joining.1.step unblocked possible,
    waits.trans joining.2.1, joining.2.2.imp (fun is => ctx.trans is) hard⟩, lower⟩

theorem lowers_of_take (joining : Joining plan s) (adapter : s.adapter.returned = false)
    (idle : s.adapter.holding = false) (waiting : 0 < s.input plan) : Lowers plan s := by
  refine lowers_of (a := .adapterTake) joining trivial trivial ⟨adapter, idle, waiting⟩ ?_ ?_ ?_ ?_
  all_goals
    simp only [input] at waiting
    simp only [effect]
    split_ifs at waiting ⊢
  any_goals first | rfl | exact id
  all_goals
    simp only [joinRank, chainRank, idle, toNat_true, toNat_false]
    omega

theorem lowers_of_full (joining : Joining plan s) (more : 0 < s.join.pending)
    (full : ¬s.joined < plan.edgeCapacity) : Lowers plan s := by
  have positive := plan.positive
  have present : ¬s.gone plan := fun nobody => by
    have room := joining.1.drains.fits nobody
    omega
  have returned : s.first.returned ≠ none := (joining.1.ordered.joining joining.2.1).1
  have adapter : s.adapter.returned = false := by
    cases is : s.adapter.returned with
    | false => rfl
    | true => exact absurd (.inl is) present
  by_cases raw : 0 < s.raw
  · refine lowers_of (a := .drain) joining trivial trivial ⟨returned, raw⟩ rfl rfl id ?_
    simp only [joinRank, chainRank, effect]
    omega
  · by_cases holding : s.adapter.holding = true
    · refine lowers_of (a := .adapterPut) joining trivial trivial
        ⟨adapter, holding, by simp [internalBuf]; omega⟩ rfl rfl id ?_
      simp only [joinRank, chainRank, effect, holding, toNat_true, toNat_false]
      omega
    · have idle : s.adapter.holding = false := by simpa using holding
      by_cases checkpointing : plan.checkpointing = true
      · have injector : s.injector.returned = false := by
          cases is : s.injector.returned with
          | false => rfl
          | true => exact absurd (.inr ⟨checkpointing, is⟩) present
        by_cases out : 0 < s.out
        · exact lowers_of_take joining adapter idle (by simpa [input, checkpointing] using out)
        · by_cases held : s.injector.holding = true
          · refine lowers_of (a := .injForward) joining trivial trivial
              ⟨checkpointing, injector, held, by simp [internalBuf]; omega⟩ rfl rfl id ?_
            simp only [joinRank, chainRank, effect, held, toNat_true, toNat_false]
            omega
          · have free : s.injector.holding = false := by simpa using held
            refine lowers_of (a := .injTake) joining trivial trivial
              ⟨checkpointing, injector, free, by omega⟩ rfl rfl id ?_
            simp only [joinRank, chainRank, effect, free, toNat_true, toNat_false]
            omega
      · refine lowers_of_take joining adapter idle ?_
        simp only [input, if_neg checkpointing]
        omega

theorem sourceRank_setSource (d : Side) (source : RunningSource) :
    sourceRank ((s.setSource d source).source .left) +
      sourceRank ((s.setSource d source).source .right) +
      sourceRank (s.source d) =
    sourceRank (s.source .left) + sourceRank (s.source .right) + sourceRank source := by
  cases d with
  | left | right =>
    simp only [setSource, update_self, ne_eq, reduceCtorEq, not_false_eq_true,
      update_of_ne]
    omega

theorem joinRank_lt {d : Side} {source : RunningSource} (mux : Nat)
    (lower : sourceRank source + 7 * mux < sourceRank (s.source d) + 7 * s.mux) :
    joinRank { s.setSource d source with mux } < s.joinRank := by
  have change := sourceRank_setSource (s := s) d source
  simp only [joinRank, chainRank, setSource] at change ⊢
  omega

theorem lowers_of_source (joining : Joining plan s) (empty : s.mux = 0) {d : Side}
    (running : (s.source d).returned = false) : Lowers plan s := by
  have positive := plan.positive
  by_cases hard : s.hard = true
  · exact lowers_of (a := .wrapAbort d) joining trivial trivial ⟨running, hard⟩ rfl rfl id
      (joinRank_lt s.mux (by simp [sourceRank, running]))
  have ctx : s.ctx = true := joining.2.2.resolve_right hard
  cases sending : (s.source d).sending with
  | true =>
    refine lowers_of (a :=
      .wrapPut d) joining trivial trivial ⟨running, sending, by omega⟩ rfl rfl id
      (joinRank_lt _ ?_)
    simp only [sourceRank, sending, toNat_true, toNat_false]
    omega
  | false =>
    by_cases raw : 0 < (s.source d).raw
    · refine lowers_of (a := .wrapTake d) joining trivial trivial ⟨running, sending, raw⟩ rfl rfl id
        (joinRank_lt _ ?_)
      simp only [sourceRank, sending, toNat_true, toNat_false]
      omega
    · by_cases ended : (s.source d).ended = none
      · exact lowers_of (a := .srcReturn d (some .canceled)) joining trivial trivial
          ⟨ended, by simp, fun _ => ctx⟩ rfl rfl id
            (joinRank_lt s.mux (by simp [sourceRank, ended]))
      · refine lowers_of (a := .wrapEnd d) joining trivial trivial
          ⟨running, sending, by omega, ended⟩ ?_ ?_ ?_ ?_
        all_goals
          simp only [effect]
          split
        any_goals first | rfl | exact id | exact fun _ => rfl
        all_goals exact joinRank_lt s.mux (by simp [sourceRank, running])

theorem lowers_of_running (joining : Joining plan s)
    (running : s.join.done = none) : Lowers plan s := by
  by_cases more : 0 < s.join.pending
  · by_cases room : s.joined < plan.edgeCapacity
    · refine lowers_of (a := .joinWrite) joining trivial trivial ⟨running, more, room⟩ rfl rfl id ?_
      simp only [joinRank, chainRank, effect]
      omega
    · exact lowers_of_full joining more room
  · have written : s.join.pending = 0 := by omega
    by_cases panics : s.join.panics = true
    · refine lowers_of (a :=
        .joinPanic) joining trivial trivial ⟨running, written, panics⟩ rfl rfl id ?_
      simp [joinRank, chainRank, effect, running]
    · have well : s.join.panics = false := by simpa using panics
      by_cases queued : 0 < s.mux
      · have fits : Unblocked plan s (.joinTake 0 false) := fun nobody => by
          have room := joining.1.drains.fits nobody
          omega
        refine lowers_of (a :=
          .joinTake 0 false) joining trivial fits ⟨running, written, well, queued⟩
          rfl rfl id ?_
        simp only [joinRank, chainRank, effect]
        omega
      · have empty : s.mux = 0 := by omega
        by_cases left : (s.source .left).returned = true
        · by_cases right : (s.source .right).returned = true
          · by_cases closed : s.muxClosed = true
            · refine lowers_of (a := .joinEnd) joining trivial trivial
                ⟨running, written, well, empty, closed⟩ rfl rfl id ?_
              simp [joinRank, chainRank, effect, running]
            · refine lowers_of (a := .closeMux) joining trivial trivial ⟨left, right⟩ rfl rfl id ?_
              simp [joinRank, chainRank, effect, closed]
          · exact lowers_of_source joining empty (by simpa using right)
        · exact lowers_of_source joining empty (by simpa using left)

theorem canReturn_of_joining (inv : Inv plan s)
    (joining : s.joining = true) : CanReturn plan s := by
  have returns : ∀ t, Inv plan t → t.joining = true → t.join.done ≠ none → CanReturn plan t := by
    intro t inv joining ended
    by_cases result : t.result = none
    · exact ⟨_, .tail .mainReturn .refl trivial (step_eq_some.2 ⟨⟨joining, result, ended⟩, rfl⟩),
        by simp [effect]⟩
    · exact ⟨t, .refl, result⟩
  by_cases ended : s.join.done = none
  · have canceled : s.ctx = true ∨ s.hard = true := by
      have first := (inv.ordered.joining joining).1
      rcases inv.drains.first first with hard | adapter
      · exact .inr hard
      · rcases inv.drains.adapted adapter with ctx | hard | done
        · exact .inl ctx
        · exact .inr hard
        · exact absurd ended done
    obtain ⟨t, reach, waits, done⟩ := Reach.exists_of_descends (Joining plan)
      (fun t => t.join.done ≠ none) joinRank (fun t waits => by
        by_cases running : t.join.done = none
        · obtain ⟨a, u, ordinary, moves, kept, lower⟩ := lowers_of_running waits running
          exact .inr ⟨a, u, ordinary, moves, kept, lower⟩
        · exact .inl running) ⟨inv, joining, canceled⟩
    obtain ⟨u, later, result⟩ := returns t waits.1 waits.2.1 done
    exact ⟨u, reach.trans later, result⟩
  · exact returns s inv joining ended

/-! ## The stages return once `hardCtx` is cancelled -/

/-- `hardCtx` is cancelled, and the first stage and some of the stages behind it have returned. -/
def Unwinding (plan : JoinPlan) (m : Nat) (s : JoinRun) : Prop :=
  Inv plan s ∧ s.hard = true ∧ s.first.returned ≠ none ∧ ∀ i < m, (s.stage i).returned ≠ none

theorem exists_unwinding (inv : Inv plan s) (hard : s.hard = true) :
    ∃ t, Reach (step plan) (fun _ a => Ordinary a) s t ∧ Unwinding plan 0 t := by
  by_cases running : s.first.returned = none
  · have possible : enabled plan s .firstAbort := ⟨running, hard⟩
    exact ⟨_, .tail .firstAbort .refl trivial (step_eq_some.2 ⟨possible, rfl⟩),
      inv.step trivial possible, hard, by simp [effect], by simp⟩
  · exact ⟨s, .refl, inv, hard, running, by simp⟩

theorem Unwinding.stages (unwinding : Unwinding plan 0 s) (m : Nat) (inside : m ≤ plan.stages) :
    ∃ t, Reach (step plan) (fun _ a => Ordinary a) s t ∧ Unwinding plan m t := by
  induction m with
  | zero => exact ⟨s, .refl, unwinding⟩
  | succ m ih =>
    obtain ⟨t, reach, inv, hard, first, earlier⟩ := ih (Nat.le_of_succ_le inside)
    by_cases running : (t.stage m).returned = none
    · have possible : enabled plan t (.opAbort m) := ⟨inside, running, hard⟩
      refine ⟨_, .tail (.opAbort m) reach trivial (step_eq_some.2 ⟨possible, rfl⟩),
        inv.step trivial possible, hard, first, fun i below => ?_⟩
      by_cases same : i = m
      · simp [effect, setStage, same]
      · simpa [effect, setStage, same] using earlier i (by omega)
    · refine ⟨t, reach, inv, hard, first, fun i below => ?_⟩
      by_cases same : i = m
      · exact same ▸ running
      · exact earlier i (by omega)

def sinkRank (plan : JoinPlan) (s : JoinRun) : Nat :=
  2 * s.edge plan.stages + s.sink.aligning.toNat + s.sink.holding.toNat + (!s.sink.closing).toNat +
    s.sink.written.isNone.toNat + s.sink.returned.isNone.toNat

theorem Unwinding.lowers (unwinding : Unwinding plan plan.stages s)
    (running : s.sink.returned = none) :
    ∃ a t, Ordinary a ∧ step plan s a = some t ∧ Unwinding plan plan.stages t ∧
      t.sinkRank plan < s.sinkRank plan := by
  obtain ⟨inv, hard, first, stages⟩ := unwinding
  have up : s.upstream plan.stages := by
    cases last : plan.stages with
    | zero => exact first
    | succ n => exact stages n (by omega)
  have lowers : ∀ a, Ordinary a → Unblocked plan s a → (possible : enabled plan s a) →
      (effect plan s a).hard = true → (effect plan s a).first = s.first →
      (effect plan s a).stage = s.stage → (effect plan s a).sinkRank plan < s.sinkRank plan →
      ∃ a t, Ordinary a ∧ step plan s a = some t ∧ Unwinding plan plan.stages t ∧
        t.sinkRank plan < s.sinkRank plan := by
    intro a ordinary unblocked possible hard first' stage' lower
    exact ⟨a, _, ordinary, step_eq_some.2 ⟨possible, rfl⟩, ⟨inv.step unblocked possible, hard,
      first' ▸ first, stage' ▸ stages⟩, lower⟩
  by_cases closing : s.sink.closing = true
  · by_cases writing : s.sink.written = none
    · refine lowers (.writeReturn (some .canceled)) rfl trivial ⟨writing,
        fun _ => hard⟩ hard rfl rfl ?_
      simp [sinkRank, effect, writing]
    · obtain ⟨o, written⟩ := Option.ne_none_iff_exists'.1 writing
      refine lowers .sinkDone trivial trivial ⟨running, closing, writing⟩ hard rfl rfl ?_
      simp [sinkRank, effect, written, running]
  · have going : s.sink.closing = false := by simpa using closing
    by_cases holding : s.sink.holding = true
    · refine lowers .sinkHard trivial trivial ⟨running, .inl holding, hard⟩ hard rfl rfl ?_
      simp only [sinkRank, effect, holding, toNat_true, toNat_false]
      omega
    · have idle : s.sink.holding = false := by simpa using holding
      by_cases aligning : s.sink.aligning = true
      · by_cases empty : s.sink.pumped = 0
        · refine lowers .sinkAligned trivial trivial ⟨running, aligning, empty⟩ hard rfl rfl ?_
          simp only [sinkRank, effect, aligning, toNat_true, toNat_false]
          omega
        · refine lowers .sinkHard trivial trivial ⟨running, .inr ⟨aligning, by omega⟩,
            hard⟩ hard rfl
            rfl ?_
          simp only [sinkRank, effect, aligning, idle, toNat_true, toNat_false]
          omega
      · have free : s.sink.aligning = false := by simpa using aligning
        by_cases queued : 0 < s.edge plan.stages
        · refine lowers (.sinkTake .dropped) trivial trivial
            ⟨running, going, free, idle, queued, by simp⟩ hard rfl rfl ?_
          simp [sinkRank, effect, setEdge, free, idle]
          omega
        · refine lowers .sinkClosed trivial trivial ⟨running, going, free, idle,
            by omega, up⟩ hard rfl
            rfl ?_
          simp [sinkRank, effect, going]

theorem exists_allReturned (inv : Inv plan s) (hard : s.hard = true) :
    ∃ t, Reach (step plan) (fun _ a => Ordinary a) s t ∧ Inv plan t ∧ t.allReturned plan := by
  obtain ⟨t, reach, unwinding⟩ := exists_unwinding inv hard
  obtain ⟨u, later, unwinding⟩ := unwinding.stages plan.stages (Nat.le_refl _)
  obtain ⟨v, last, ⟨inv, -, first, stages⟩, sink⟩ :=
    Reach.exists_of_descends (Unwinding plan plan.stages)
    (fun v => v.sink.returned ≠ none) (sinkRank plan) (fun v unwinding => by
      by_cases running : v.sink.returned = none
      · obtain ⟨a, w, ordinary, moves, kept, lower⟩ := unwinding.lowers running
        exact .inr ⟨a, w, ordinary, moves, kept, lower⟩
      · exact .inl running) unwinding
  exact ⟨v, (reach.trans later).trans last, inv, first, stages, sink⟩

theorem canReturn_of_inv (inv : Inv plan s)
    (ends : s.ctx = true ∨ s.hard = true ∨ s.allReturned plan) : CanReturn plan s := by
  have joins : ∀ t, Inv plan t → t.allReturned plan → CanReturn plan t := by
    intro t inv all
    cases joining : t.joining with
    | true => exact canReturn_of_joining inv joining
    | false =>
      have possible : enabled plan t .mainStages := ⟨joining, all⟩
      have kept : Inv plan (effect plan t .mainStages) := inv.step trivial possible
      obtain ⟨u, reach, result⟩ := canReturn_of_joining kept rfl
      exact ⟨u,
        Reach.trans (.tail .mainStages .refl trivial (step_eq_some.2 ⟨possible, rfl⟩)) reach,
        result⟩
  have hards : ∀ t, Inv plan t → t.hard = true → CanReturn plan t := by
    intro t inv hard
    obtain ⟨u, reach, inv, all⟩ := exists_allReturned inv hard
    obtain ⟨v, later, result⟩ := joins u inv all
    exact ⟨v, reach.trans later, result⟩
  rcases ends with ctx | hard | all
  · cases joining : s.joining with
    | true => exact canReturn_of_joining inv joining
    | false =>
      have possible : enabled plan s .timeout := ⟨ctx, joining⟩
      have kept : Inv plan (effect plan s .timeout) := inv.step trivial possible
      obtain ⟨u, reach, result⟩ := hards _ kept rfl
      exact ⟨u, Reach.trans (.tail .timeout .refl trivial (step_eq_some.2 ⟨possible, rfl⟩)) reach,
        result⟩
  · exact hards s inv hard
  · exact joins s inv all

/-! ## Errors are returned -/

/-- A stage's error other than a cancellation is the first that was reported, and `Execute`
returns an error. -/
structure Reported (plan : JoinPlan) (s : JoinRun) : Prop where
  first : FailedWith plan s .other → s.errCh.head? = some .other
  returned : FailedWith plan s .other → s.result ≠ some none

theorem head?_report {errCh : List Fault} (first : errCh.head? = some e) (o : Outcome) :
    (report errCh o).head? = some e := by
  cases o with
  | none => exact first
  | some e' =>
    simp only [report]
    split
    · rw [List.head?_append, first]
      rfl
    · exact first

theorem head?_report_other {errCh : List Fault} (early : errCh.head? ≠ some .canceled) :
    (report errCh (some .other)).head? = some .other := by
  cases errCh with
  | nil => rfl
  | cons e rest =>
    cases e with
    | canceled => exact absurd rfl early
    | other => exact head?_report rfl _

theorem Reported.mono (reported : Reported plan s) (failed : FailedWith plan t .other →
    FailedWith plan s .other) (errCh : s.errCh.head? = some .other → t.errCh.head? = some .other)
    (result : t.result = s.result) : Reported plan t :=
  ⟨fun is => errCh (reported.first (failed is)), fun is => result ▸ reported.returned (failed is)⟩

theorem failedWith_pending {stage : RunningStage} {edge : Nat → Nat}
    (returned : stage.returned = (s.stage i).returned)
    (failed : FailedWith plan { s.setStage i stage with edge } e) : FailedWith plan s e := by
  rcases failed with is | ⟨j, inside, is⟩ | is
  · exact .inl is
  · exact .inr (.inl ⟨j, inside, returned_setStage returned j ▸ is⟩)
  · exact .inr (.inr is)

theorem failedWith_setStage (errCh : List Fault) (well : o ≠ some .other)
    (failed :
      FailedWith plan { s.setStage i { s.stage i with returned := some o } with errCh } .other) :
    FailedWith plan s .other := by
  rcases failed with is | ⟨j, inside, is⟩ | is
  · exact .inl is
  · refine .inr (.inl ⟨j, inside, ?_⟩)
    by_cases same : j = i
    · subst same
      exact absurd (by simpa [setStage] using is) well
    · simpa [setStage, same] using is
  · exact .inr (.inr is)

theorem Ordered.result_none (ordered : Ordered plan s)
    (running : ¬s.allReturned plan) : s.result = none := by
  by_contra result
  exact running (ordered.joining (ordered.result result))

theorem Reported.sinkReturns (reported : Reported plan s) (inv : Inv plan s)
    (early : s.sink.written = some (some .other) → s.errCh.head? ≠ some .canceled)
    (running : s.sink.returned = none) : Reported plan { s with
      sink := { s.sink with returned := s.sink.written }
      errCh := report s.errCh (s.sink.written.getD none) } := by
  by_cases failed : s.sink.written = some (some .other)
  · have going := inv.ordered.result_none fun all => all.2.2 running
    refine ⟨fun _ => ?_, fun _ => by simp [going]⟩
    simpa [failed] using head?_report_other (early failed)
  · refine reported.mono (fun is => ?_) (fun first => head?_report first _) rfl
    rcases is with first | stage | sink
    · exact .inl first
    · exact .inr (.inl stage)
    · exact absurd sink failed

theorem Reported.step (reported : Reported plan s) (inv : Inv plan s) (early : FirstToReport s a)
    (possible : enabled plan s a) : Reported plan (effect plan s a) := by
  cases a with
  | wrapAbort d =>
    refine reported.mono id (fun first => ?_) rfl
    simp only [effect]
    split
    · exact first
    · exact head?_report first _
  | wrapEnd d =>
    simp only [effect]
    split
    · exact reported.mono id (fun first => head?_report first (some .other)) rfl
    · exact reported.mono id id rfl
  | injClosed | adapterTake =>
    simp only [effect]
    split <;> exact reported.mono id id rfl
  | firstAbort =>
    refine reported.mono (fun failed => ?_) (fun first => head?_report first (some .canceled)) rfl
    rcases failed with is | rest
    · simp [effect] at is
    · exact .inr rest
  | firstEnd =>
    refine reported.mono (fun failed => ?_) id rfl
    rcases failed with is | rest
    · simp [effect] at is
    · exact .inr rest
  | opTake i | opClose i | opSend i => exact reported.mono (failedWith_pending (i := i) rfl) id rfl
  | opEnd i => exact reported.mono (failedWith_setStage s.errCh (by simp)) id rfl
  | opFail i =>
    obtain ⟨bound, running⟩ := possible
    have going := inv.ordered.result_none fun all => all.2.1 i bound running
    refine ⟨fun _ => head?_report_other early, fun _ => ?_⟩
    simp [effect, setStage, going]
  | opAbort i =>
    exact reported.mono (failedWith_setStage _ (by simp))
      (fun first => head?_report first (some .canceled)) rfl
  | sinkDead | sinkDone =>
    obtain ⟨running, -, -⟩ := possible
    exact reported.sinkReturns inv early running
  | mainReturn =>
    refine ⟨reported.first, fun failed => ?_⟩
    obtain ⟨rest, first⟩ := List.head?_eq_some_iff.1 (reported.first failed)
    cases ended : s.join.done.getD none with
    | none => simp [effect, ended, first, firstError]
    | some e => simp [effect, ended]
  | _ => exact reported.mono id id rfl

/-- In every run in which what the join makes fits into `joined` once nothing reads it, and stages
fail only between a cancellation and its report: whenever the caller has cancelled or a stage has
failed, `Execute` can still return, and it does not return without an error after a failure. -/
theorem native_join_returns (plan : JoinPlan) {s : JoinRun}
    (reach : Reach (step plan) (fun s a => Unblocked plan s a ∧ FirstToReport s a) (start plan) s) :
    ((s.ctx = true ∨ ∃ e, FailedWith plan s e) → CanReturn plan s) ∧
      (FailedWith plan s .other → s.result ≠ some none) := by
  have holds : Inv plan s ∧ Reported plan s := by
    induction reach with
    | refl =>
      refine ⟨inv_start plan, fun failed => ?_, fun _ => by simp [start]⟩
      simp [FailedWith, start] at failed
    | tail a _ meets moves ih =>
      obtain ⟨possible, rfl⟩ := step_eq_some.1 moves
      exact ⟨ih.1.step meets.1 possible, ih.2.step ih.1 meets.2 possible⟩
  refine ⟨fun ends => ?_, holds.2.returned⟩
  rcases ends with ctx | ⟨e, failed⟩
  · exact canReturn_of_inv holds.1 (.inl ctx)
  · exact canReturn_of_inv holds.1 (holds.1.ordered.of_failed failed)

section Examples

def endless : JoinPlan where
  edgeCapacity := 1
  positive := Nat.one_pos
  checkpointing := false
  stages := 1
  records _ := none

/-- A stage that fails after the caller has cancelled makes `Execute` return its error. -/
theorem native_join_returns_error : ∃ s, Reach (step endless)
    (fun s a => Unblocked endless s a ∧ FirstToReport s a) (start endless) s ∧
    s.result = some (some .other) ∧ ((s.ctx = true ∨ ∃ e, FailedWith endless s e) →
    CanReturn endless s) ∧ (FailedWith endless s .other → s.result ≠ some none) := by
  obtain ⟨s, reach, error⟩ := Reach.exists_of_guarded (step endless)
    (fun s a => Unblocked endless s a ∧ FirstToReport s a) (start endless)
    [.cancel, .opFail 0, .timeout, .firstAbort, .sinkClosed, .writeEnd, .sinkDone, .mainStages,
      .wrapAbort .left, .wrapAbort .right, .closeMux, .joinEnd, .mainReturn]
    (fun s => s.result = some (some .other)) (by decide)
  exact ⟨s, reach, of_decide_eq_true error, native_join_returns endless reach⟩

/-- The join has a record to write, `joined` is full and nothing reads it. -/
def Hangs (plan : JoinPlan) (s : JoinRun) : Prop :=
  s.join.done = none ∧ 0 < s.join.pending ∧ s.joined = plan.edgeCapacity ∧
    s.adapter.returned = true ∧
    plan.checkpointing = false ∧ s.result = none

instance (plan : JoinPlan) (s : JoinRun) : Decidable (Hangs plan s) := by
  unfold Hangs
  infer_instance

theorem Hangs.step {plan : JoinPlan} {s : JoinRun} {a : JoinRunAction} (hangs : Hangs plan s)
    (possible : enabled plan s a) : Hangs plan (effect plan s a) := by
  obtain ⟨running, more, full, returned, unchecked, going⟩ := hangs
  cases a with
  | joinTake makes panics | joinEnd | joinPanic => exact absurd possible.2.1 (by omega)
  | joinWrite => exact absurd possible.2.2 (by omega)
  | injTake | injClosed => exact absurd (possible.1.symm.trans unchecked) (by simp)
  | adapterTake | adapterPut => exact absurd (possible.1.symm.trans returned) (by simp)
  | adapterEnd | adapterCancel => exact ⟨running, more, full, rfl, unchecked, going⟩
  | wrapEnd d =>
    simp only [effect]
    split <;> exact ⟨running, more, full, returned, unchecked, going⟩
  | mainReturn => exact absurd running possible.2.2
  | _ => exact ⟨running, more, full, returned, unchecked, going⟩

theorem Hangs.not_canReturn {plan : JoinPlan} {s : JoinRun}
    (hangs : Hangs plan s) : ¬CanReturn plan s := by
  rintro ⟨t, reach, result⟩
  have still : Hangs plan t := reach.invariant hangs fun s a t hangs _ moves => by
    obtain ⟨possible, rfl⟩ := step_eq_some.1 moves
    exact hangs.step possible
  exact result still.2.2.2.2.2

/-- Endless sources go on: nothing in front of the stages has returned, and nobody has
cancelled. -/
def Flows (s : JoinRun) : Prop :=
  s.ctx = false ∧ s.hard = false ∧ (∀ d ∈ [Side.left, Side.right], (s.source d).remaining = none ∧
    (s.source d).ended = none ∧ (s.source d).returned = false) ∧ s.muxClosed = false ∧
    s.join.done = none ∧ s.join.panics = false ∧ s.injector.last = false ∧
    s.injector.returned = false ∧ s.adapter.returned = false ∧ s.first.returned = none ∧
    s.joining = false ∧ s.result = none

instance (s : JoinRun) : Decidable (Flows s) := by
  unfold Flows
  infer_instance

theorem flows_setSource {s : JoinRun} {d : Side} {source : RunningSource}
    (flows : ∀ d ∈ [Side.left, Side.right], (s.source d).remaining = none ∧
      (s.source d).ended = none ∧ (s.source d).returned = false)
    (goes : source.remaining = none ∧ source.ended = none ∧ source.returned = false) :
    ∀ c ∈ [Side.left, Side.right], ((s.setSource d source).source c).remaining = none ∧
      ((s.setSource d source).source c).ended = none ∧
      ((s.setSource d source).source c).returned = false := by
  intro c mem
  by_cases same : c = d
  · subst same
    simpa [setSource] using goes
  · simpa [setSource, same] using flows c mem

theorem Flows.step {plan : JoinPlan} {s : JoinRun} {a : JoinRunAction} (flows : Flows s)
    (ordinary : Ordinary a) (possible : enabled plan s a) : Flows (effect plan s a) := by
  have all := flows
  obtain ⟨ctx, hard, sources, unclosed, running, well, more, injector, adapter, first, waiting,
    going⟩ :=
    flows
  have source : ∀ d, (s.source d).remaining = none ∧ (s.source d).ended = none ∧
      (s.source d).returned = false := fun d => sources d (by cases d <;> simp)
  cases a with
  | cancel | opFail i => exact ordinary.elim
  | timeout => exact absurd (possible.1.symm.trans ctx) (by simp)
  | srcEmit d =>
    obtain ⟨endless, goes, kept⟩ := source d
    exact ⟨ctx, hard, flows_setSource sources ⟨by simp [endless], goes, kept⟩, unclosed, running,
      well,
      more, injector, adapter, first, waiting, going⟩
  | srcReturn d e =>
    obtain ⟨-, finite, canceled⟩ := possible
    cases e with
    | none => exact absurd ((finite rfl).symm.trans (source d).1) (by simp)
    | some e =>
      cases e with
      | canceled => exact absurd ((canceled rfl).symm.trans ctx) (by simp)
      | other => exact ordinary.elim
  | wrapTake d | wrapPut d => exact ⟨ctx, hard, flows_setSource sources (source d), all.2.2.2⟩
  | wrapAbort d | firstAbort => exact absurd (possible.2.symm.trans hard) (by simp)
  | wrapEnd d => exact absurd (source d).2.1 possible.2.2.2
  | closeMux => exact absurd (possible.1.symm.trans (source .left).2.2) (by simp)
  | joinTake makes panics =>
    cases panics with
    | false => exact ⟨ctx, hard, sources, unclosed, running, rfl, all.2.2.2.2.2.2⟩
    | true => exact ordinary.elim
  | joinEnd => exact absurd (possible.2.2.2.2.symm.trans unclosed) (by simp)
  | joinPanic => exact absurd (possible.2.2.symm.trans well) (by simp)
  | injForward =>
    exact ⟨ctx, hard, sources, unclosed, running, well, more, more, adapter, first, waiting, going⟩
  | injClosed => exact absurd running possible.2.2.2.2
  | injAbort => exact absurd (possible.2.2.2.symm.trans hard) (by simp)
  | adapterTake =>
    simp only [effect]
    split <;> exact all
  | adapterEnd =>
    obtain ⟨-, -, -, closed⟩ := possible
    simp only [inputClosed] at closed
    split at closed
    · exact absurd (closed.symm.trans injector) (by simp)
    · exact absurd running closed
  | adapterCancel => exact absurd (possible.2.symm.trans ctx) (by simp)
  | firstEnd => exact absurd (possible.2.2.2.symm.trans adapter) (by simp)
  | mainStages => exact absurd first possible.2.1
  | mainReturn => exact absurd (possible.1.symm.trans waiting) (by simp)
  | _ => exact all

theorem Flows.not_canReturn {plan : JoinPlan} {s : JoinRun}
    (flows : Flows s) : ¬CanReturn plan s := by
  rintro ⟨t, reach, result⟩
  have still : Flows t := reach.invariant flows fun s a t flows ordinary moves => by
    obtain ⟨possible, rfl⟩ := step_eq_some.1 moves
    exact flows.step ordinary possible
  exact result still.2.2.2.2.2.2.2.2.2.2.2

/-- Two joined records are to be written when the caller cancels: the adapter returns, the second
does not fit, and `Execute` never returns. The sink fails and nobody cancels: `Execute` never
returns. The first stage reports the cancellation before the sink fails: `Execute` returns no
error. -/
theorem endless_hangs :
    (∃ s, Reach (step endless) Transition.Always (start endless) s ∧ s.ctx = true ∧
      ¬CanReturn endless s) ∧
    (∃ s, Reach (step endless) Transition.Always (start endless) s ∧ FailedWith endless s .other ∧
      ¬CanReturn endless s) ∧
    ∃ s, Reach (step endless) Transition.Always (start endless) s ∧ FailedWith endless s .other ∧
      s.result = some none := by
  refine ⟨?_, ?_, ?_⟩
  · obtain ⟨s, reach, stuck⟩ := Reach.exists_of_run (step endless) (start endless)
      [.srcEmit .left, .wrapTake .left, .wrapPut .left, .joinTake 2 false, .joinWrite, .cancel,
        .adapterCancel] (fun s => s.ctx && decide (Hangs endless s)) (by decide)
    simp only [and_eq_true, decide_eq_true_eq] at stuck
    exact ⟨s, reach, stuck.1, stuck.2.not_canReturn⟩
  · obtain ⟨s, reach, failed⟩ := Reach.exists_of_run (step endless) (start endless)
      [.srcEmit .left, .wrapTake .left, .wrapPut .left, .joinTake 1 false, .joinWrite, .adapterTake,
        .adapterPut, .firstTake, .firstSend, .opTake 0 1, .opSend 0, .sinkTake .data,
        .writeReturn (some .other), .sinkDead]
      (fun s => decide (s.sink.returned = some (some .other)) && decide (Flows s)) (by decide)
    simp only [and_eq_true, decide_eq_true_eq] at failed
    exact ⟨s, reach, .inr (.inr failed.1), failed.2.not_canReturn⟩
  · obtain ⟨s, reach, lost⟩ := Reach.exists_of_run (step endless) (start endless)
      [.cancel, .timeout, .firstAbort, .opAbort 0, .writeReturn (some .other), .sinkClosed,
        .sinkDone,
        .mainStages, .wrapAbort .left, .wrapAbort .right, .closeMux, .joinEnd, .mainReturn]
      (fun s => decide (s.sink.returned = some (some .other)) && decide (s.result = some none))
      (by decide)
    simp only [and_eq_true, decide_eq_true_eq] at lost
    exact ⟨s, reach, .inr (.inr lost.1), lost.2⟩

end Examples

end JoinRun

end Weibo.Engine
