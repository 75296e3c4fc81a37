import Weibo.Checkpoint.Storage
import Weibo.Source.Position

/-!
# Restoring a checkpoint

`Execute` restores the source offset before the plan is built, and the state of operators and worker
clones after it. A native state directory goes to a `Checkpointable` backend, inline bytes to a
`Snapshotable` operator, and an owner that neither applies to is reset.
-/

namespace Weibo.Engine

open Option

open Checkpoint (CheckpointData)
open Source (PositionData)

inductive OwnerID
  | op (i : Nat)
  | worker (i : Nat)
  deriving DecidableEq

def OwnerID.text : OwnerID → String
  | .op i => "op-" ++ toString i
  | .worker i => "worker-" ++ toString i

structure OwnerStates where
  operators : OwnerID → Option Bytes
  stateDirs : OwnerID → Option String

/-- A state backend, by the optional interfaces it implements. The operator's whole state goes
in and out of its methods. -/
structure StateBackend (σ : Type) where
  restoreFrom : Option (String → σ → Except String σ) := none
  reset : Option (σ → Except String σ) := none

structure OperatorInstance (σ : Type) where
  state : σ
  backend : Option (StateBackend σ) := none
  restore : Option (Bytes → σ → Except String σ) := none

structure SourceInstance (π ρ : Type) where
  position : ρ
  restoreOffset : Option (π → Except String ρ) := none

/-- What `Execute` restores into. -/
structure RestoreEnv (π ρ σ : Type) where
  source : SourceInstance π ρ
  operators : List (OperatorInstance σ)
  workerOps : List (OperatorInstance σ)
  absPath : CheckpointID → String → String

variable {π ρ σ : Type}

namespace RestoreEnv

/-- `restoreSourceOffset`: a rejected offset is logged. -/
def restoreSourceOffset (env : RestoreEnv π ρ σ) (data : CheckpointData π OwnerStates) :
    RestoreEnv π ρ σ :=
  match env.source.restoreOffset, data.source with
  | some restore, some offset =>
    match restore offset with
    | .ok position => { env with source := { env.source with position } }
    | .error _ => env
  | _, _ => env

def resetOperatorState (key : OwnerID) (op : OperatorInstance σ) :
    Except String (OperatorInstance σ) :=
  match op.backend.bind StateBackend.reset with
  | none => .ok op
  | some reset =>
    match reset op.state with
    | .error e => .error ("reset uncheckpointed state " ++ key.text ++ ": " ++ e)
    | .ok state => .ok { op with state }

def nativeRestore (absPath : String → String) (states : OwnerStates) (key : OwnerID)
    (op : OperatorInstance σ) : Option (Except String σ) :=
  match states.stateDirs key, op.backend.bind StateBackend.restoreFrom with
  | some dir, some restoreFrom => some (restoreFrom (absPath dir) op.state)
  | _, _ => none

def inlineRestore (states : OwnerStates) (key : OwnerID) (op : OperatorInstance σ) :
    Option (Except String σ) :=
  match op.restore, states.operators key with
  | some restore, some bytes => if bytes.length > 0 then some (restore bytes op.state) else none
  | _, _ => none

def restoreOperatorState (absPath : String → String) (states : OwnerStates) (key : OwnerID)
    (op : OperatorInstance σ) : Except String (OperatorInstance σ) :=
  match nativeRestore absPath states key op with
  | some (.error e) => .error ("restore " ++ key.text ++ " from native state: " ++ e)
  | some (.ok state) => .ok { op with state }
  | none =>
    match inlineRestore states key op with
    | some (.error e) => .error ("restore " ++ key.text ++ ": " ++ e)
    | some (.ok state) => .ok { op with state }
    | none => resetOperatorState key op

/-- A loop of `restoreWorkersFromCheckpoint`, from the given position on. -/
def restoreOwners (absPath : String → String) (states : OwnerStates) (owner : Nat → OwnerID) :
    Nat → List (OperatorInstance σ) → Except String (List (OperatorInstance σ))
  | _, [] => .ok []
  | i, op :: rest =>
    match restoreOperatorState absPath states (owner i) op with
    | .error e => .error e
    | .ok op =>
      match restoreOwners absPath states owner (i + 1) rest with
      | .error e => .error e
      | .ok rest => .ok (op :: rest)

def ownerStates (data : CheckpointData π OwnerStates) : OwnerStates :=
  data.operators.getD ⟨fun _ => none, fun _ => none⟩

def restoreWorkersFromCheckpoint (env : RestoreEnv π ρ σ) (data : CheckpointData π OwnerStates) :
    Except String (RestoreEnv π ρ σ) :=
  match restoreOwners (env.absPath data.id) (ownerStates data) .op 0 env.operators with
  | .error e => .error e
  | .ok operators =>
    match restoreOwners (env.absPath data.id) (ownerStates data) .worker 0 env.workerOps with
    | .error e => .error e
    | .ok workerOps => .ok { env with operators, workerOps }

/-- The recovery of `Execute` from a loaded checkpoint: phase A restores the source offset,
phase B the state of the owners. -/
def recover (env : RestoreEnv π ρ σ) (data : CheckpointData π OwnerStates) :
    Except String (RestoreEnv π ρ σ) :=
  match (env.restoreSourceOffset data).restoreWorkersFromCheckpoint data with
  | .error e => .error ("weibo: restore operator state: " ++ e)
  | .ok env => .ok env

def owner (env : RestoreEnv π ρ σ) : OwnerID → Option (OperatorInstance σ)
  | .op i => env.operators[i]?
  | .worker i => env.workerOps[i]?

/-! ## What a restore does -/

variable {absPath : String → String} {states : OwnerStates} {data : CheckpointData π OwnerStates}
  {env after : RestoreEnv π ρ σ}

variable {op : OperatorInstance σ}

theorem getElem?_of_restoreOwners {number : Nat → OwnerID} {start : Nat}
    {ops restored : List (OperatorInstance σ)}
    (loop : restoreOwners absPath states number start ops = .ok restored) {i : Nat}
    (present : ops[i]? = some op) : ∃ op', restored[i]? = some op' ∧
      restoreOperatorState absPath states (number (start + i)) op = .ok op' := by
  induction ops generalizing start restored i with
  | nil => simp at present
  | cons first rest ih =>
    simp only [restoreOwners] at loop
    cases head : restoreOperatorState absPath states (number start) first with
    | error e => simp [head] at loop
    | ok first' =>
      cases tail : restoreOwners absPath states number (start + 1) rest with
      | error e => simp [head, tail] at loop
      | ok rest' =>
        simp only [head, tail, Except.ok.injEq] at loop
        subst loop
        cases i with
        | zero =>
          obtain rfl : first = op := by simpa using present
          exact ⟨first', by simp, by simpa using head⟩
        | succ i =>
          obtain ⟨op', kept, call⟩ := ih tail (i := i) (by simpa using present)
          refine ⟨op', by simpa using kept, ?_⟩
          rwa [show start + (i + 1) = start + 1 + i by omega]

theorem exists_restoreOwners {number : Nat → OwnerID} {start : Nat}
    {ops : List (OperatorInstance σ)}
    (calls : ∀ i op, ops[i]? = some op →
      ∃ op', restoreOperatorState absPath states (number (start + i)) op = .ok op') :
    ∃ restored, restoreOwners absPath states number start ops = .ok restored := by
  induction ops generalizing start with
  | nil => exact ⟨[], rfl⟩
  | cons first rest ih =>
    obtain ⟨first', head⟩ := calls 0 first rfl
    have later : ∀ i op, rest[i]? = some op →
        ∃ op', restoreOperatorState absPath states (number (start + 1 + i)) op = .ok op' := by
      intro i op present
      have call := calls (i + 1) op (by simpa using present)
      rwa [show start + (i + 1) = start + 1 + i by omega] at call
    obtain ⟨rest', tail⟩ := ih later
    exact ⟨first' :: rest', by simp [restoreOwners, show restoreOperatorState absPath states
      (number start) first = .ok first' from head, tail]⟩

variable {key : OwnerID}

theorem owner_of_restoreWorkers (restores : env.restoreWorkersFromCheckpoint data = .ok after)
    (present : env.owner key = some op) : ∃ op', after.owner key = some op' ∧
      restoreOperatorState (env.absPath data.id) (ownerStates data) key op = .ok op' := by
  simp only [restoreWorkersFromCheckpoint] at restores
  cases first : restoreOwners (env.absPath data.id) (ownerStates data) .op 0 env.operators with
  | error e => simp [first] at restores
  | ok operators =>
    cases second :
      restoreOwners (env.absPath data.id) (ownerStates data) .worker 0 env.workerOps with
    | error e => simp [first, second] at restores
    | ok workerOps =>
      simp only [first, second, Except.ok.injEq] at restores
      subst restores
      cases key with
      | op i => simpa [owner] using getElem?_of_restoreOwners first present
      | worker i => simpa [owner] using getElem?_of_restoreOwners second present

theorem exists_restoreWorkers (calls : ∀ key op, env.owner key = some op →
      ∃ op', restoreOperatorState (env.absPath data.id) (ownerStates data) key op = .ok op') :
    ∃ after, env.restoreWorkersFromCheckpoint data = .ok after := by
  have operators : ∀ i op, env.operators[i]? = some op →
      ∃ op',
        restoreOperatorState (env.absPath data.id) (ownerStates data) (.op (0 + i)) op = .ok op' :=
    fun i op present => by simpa using calls (.op i) op present
  have workers : ∀ i op, env.workerOps[i]? = some op →
      ∃ op', restoreOperatorState (env.absPath data.id) (ownerStates data) (.worker (0 + i)) op =
        .ok op' :=
    fun i op present => by simpa using calls (.worker i) op present
  obtain ⟨operators, first⟩ := exists_restoreOwners operators
  obtain ⟨workerOps, second⟩ := exists_restoreOwners workers
  exact ⟨{ env with operators, workerOps }, by simp [restoreWorkersFromCheckpoint, first, second]⟩

theorem source_of_restoreWorkers (restores : env.restoreWorkersFromCheckpoint data = .ok after) :
    after.source = env.source := by
  simp only [restoreWorkersFromCheckpoint] at restores
  split at restores
  · cases restores
  · split at restores
    · cases restores
    · cases restores
      rfl

theorem restoreSourceOffset_keeps (env : RestoreEnv π ρ σ) (data : CheckpointData π OwnerStates) :
    (env.restoreSourceOffset data).owner = env.owner ∧
      (env.restoreSourceOffset data).absPath = env.absPath := by
  simp only [restoreSourceOffset]
  split
  · split <;> exact ⟨rfl, rfl⟩
  · exact ⟨rfl, rfl⟩

theorem recover_eq_ok : env.recover data = .ok after ↔
    (env.restoreSourceOffset data).restoreWorkersFromCheckpoint data = .ok after := by
  simp only [recover]
  cases (env.restoreSourceOffset data).restoreWorkersFromCheckpoint data <;> simp

theorem owner_of_recover (recovers : env.recover data = .ok after)
    (present : env.owner key = some op) : ∃ op', after.owner key = some op' ∧
      restoreOperatorState (env.absPath data.id) (ownerStates data) key op = .ok op' := by
  obtain ⟨same, path⟩ := restoreSourceOffset_keeps env data
  have restored := owner_of_restoreWorkers (recover_eq_ok.1 recovers) (same ▸ present)
  rwa [path] at restored

theorem source_of_recover (recovers : env.recover data = .ok after) :
    after.source = (env.restoreSourceOffset data).source :=
  source_of_restoreWorkers (recover_eq_ok.1 recovers)

/-! ## One checkpoint or none -/

def HoldsState (data : CheckpointData π OwnerStates) (key : OwnerID) : Prop :=
  (∃ dir, (ownerStates data).stateDirs key = some dir) ∨
    ∃ bytes, (ownerStates data).operators key = some bytes ∧ bytes ≠ []

def LoadedFrom (env : RestoreEnv π ρ σ) (data : CheckpointData π OwnerStates) (key : OwnerID)
    (op : OperatorInstance σ) (state : σ) : Prop :=
  (∃ dir backend load, (ownerStates data).stateDirs key = some dir ∧ op.backend = some backend ∧
    backend.restoreFrom = some load ∧ load (env.absPath data.id dir) op.state = .ok state) ∨
  ∃ bytes load, (ownerStates data).operators key = some bytes ∧ bytes ≠ [] ∧
    op.restore = some load ∧ load bytes op.state = .ok state

/-- If the start gets past recovery, the source is at the positions of the checkpoint, and
every owner the checkpoint holds state for has been loaded with it. -/
structure OneCheckpoint (env : RestoreEnv π ρ σ) (data : CheckpointData π OwnerStates) : Prop where
  positioned : ∀ after, env.recover data = .ok after → ∀ offset, data.source = some offset →
    ∃ restore, env.source.restoreOffset = some restore ∧
      restore offset = .ok after.source.position
  loaded : ∀ after, env.recover data = .ok after → ∀ key, HoldsState data key →
    ∃ op op', env.owner key = some op ∧ after.owner key = some op' ∧
      LoadedFrom env data key op op'.state

structure Restorable (env : RestoreEnv π ρ σ) (data : CheckpointData π OwnerStates) : Prop where
  source : ∀ offset, data.source = some offset →
    ∃ restore position, env.source.restoreOffset = some restore ∧ restore offset = .ok position
  /-- Each owner of stored state is in the plan, with a backend that loads directories if it has
  one, or else as an operator that takes its inline bytes. -/
  owners : ∀ key, HoldsState data key → ∃ op, env.owner key = some op ∧
    ((∃ dir, (ownerStates data).stateDirs key = some dir) ∧
        (op.backend.bind StateBackend.restoreFrom).isSome ∨
      (∃ bytes, (ownerStates data).operators key = some bytes ∧ bytes ≠ []) ∧ op.restore.isSome)

def Refuses (env : RestoreEnv π ρ σ) (data : CheckpointData π OwnerStates) : Prop :=
  ∃ key op e, env.owner key = some op ∧
    restoreOperatorState (env.absPath data.id) (ownerStates data) key op = .error e

theorem refuses_iff (env : RestoreEnv π ρ σ) (data : CheckpointData π OwnerStates) :
    Refuses env data ↔ ∀ after, env.recover data ≠ .ok after := by
  obtain ⟨same, path⟩ := restoreSourceOffset_keeps env data
  constructor
  · rintro ⟨key, op, e, present, fails⟩ after recovers
    obtain ⟨op', -, call⟩ := owner_of_recover recovers present
    cases fails.symm.trans call
  · intro refuses
    by_contra succeeds
    have calls : ∀ key op, (env.restoreSourceOffset data).owner key = some op →
        ∃ op', restoreOperatorState ((env.restoreSourceOffset data).absPath data.id)
          (ownerStates data) key op = .ok op' := by
      rw [same, path]
      intro key op present
      cases call : restoreOperatorState (env.absPath data.id) (ownerStates data) key op with
      | ok op' => exact ⟨op', rfl⟩
      | error e => exact absurd ⟨key, op, e, present, call⟩ succeeds
    obtain ⟨after, restores⟩ := exists_restoreWorkers calls
    exact refuses after (recover_eq_ok.2 restores)

theorem nativeRestore_eq_some {result : Except String σ} :
    nativeRestore absPath states key op = some result ↔
      ∃ dir backend load, states.stateDirs key = some dir ∧ op.backend = some backend ∧
        backend.restoreFrom = some load ∧ load (absPath dir) op.state = result := by
  simp only [nativeRestore]
  cases states.stateDirs key with
  | none => simp
  | some dir =>
    cases op.backend with
    | none => simp
    | some backend => cases load : backend.restoreFrom <;> simp [load]

theorem inlineRestore_eq_some {result : Except String σ} :
    inlineRestore states key op = some result ↔
      ∃ bytes load, states.operators key = some bytes ∧ bytes ≠ [] ∧ op.restore = some load ∧
        load bytes op.state = result := by
  simp only [inlineRestore]
  cases op.restore with
  | none => simp
  | some load =>
    cases states.operators key with
    | none => simp
    | some bytes => simp [List.length_pos_iff]

theorem loadedFrom_of_restore {op' : OperatorInstance σ}
    (restores : restoreOperatorState (env.absPath data.id) (ownerStates data) key op = .ok op')
    (applies : (nativeRestore (env.absPath data.id) (ownerStates data) key op).isSome ∨
      (inlineRestore (ownerStates data) key op).isSome) : LoadedFrom env data key op op'.state := by
  simp only [restoreOperatorState] at restores
  cases native : nativeRestore (env.absPath data.id) (ownerStates data) key op with
  | some result =>
    cases result with
    | error e => simp [native] at restores
    | ok state =>
      simp only [native, Except.ok.injEq] at restores
      subst restores
      exact .inl (nativeRestore_eq_some.1 native)
  | none =>
    simp only [native, isSome_none, Bool.false_eq_true, false_or] at restores applies
    obtain ⟨result, inline⟩ := isSome_iff_exists.1 applies
    cases result with
    | error e => simp [inline] at restores
    | ok state =>
      simp only [inline, Except.ok.injEq] at restores
      subst restores
      exact .inr (inlineRestore_eq_some.1 inline)

theorem Restorable.oneCheckpoint (restorable : Restorable env data) : OneCheckpoint env data where
  positioned := by
    intro after recovers offset stored
    obtain ⟨restore, position, accepts, result⟩ := restorable.source offset stored
    refine ⟨restore, accepts, ?_⟩
    rw [source_of_recover recovers, result]
    simp [restoreSourceOffset, accepts, stored, result]
  loaded := by
    intro after recovers key holds
    obtain ⟨op, present, takes⟩ := restorable.owners key holds
    obtain ⟨op', there, restores⟩ := owner_of_recover recovers present
    refine ⟨op, op', present, there, loadedFrom_of_restore restores ?_⟩
    rcases takes with ⟨⟨dir, native⟩, loads⟩ | ⟨⟨bytes, inline, given⟩, loads⟩
    · obtain ⟨load, implemented⟩ := isSome_iff_exists.1 loads
      obtain ⟨backend, has, implements⟩ := bind_eq_some_iff.1 implemented
      exact .inl (isSome_iff_exists.2
        ⟨_, nativeRestore_eq_some.2 ⟨dir, backend, load, native, has, implements, rfl⟩⟩)
    · obtain ⟨load, implements⟩ := isSome_iff_exists.1 loads
      exact .inr (isSome_iff_exists.2
        ⟨_, inlineRestore_eq_some.2 ⟨bytes, load, inline, given, implements, rfl⟩⟩)

/-- For every checkpoint, source and plan: a start that gets past recovery runs from that one
checkpoint exactly when some owner's restore or reset fails, so that it does not get past, or
the source accepts the stored positions and every owner of stored state is in the plan and can
load it. -/
theorem one_checkpoint_iff (env : RestoreEnv π ρ σ) (data : CheckpointData π OwnerStates) :
    OneCheckpoint env data ↔ Refuses env data ∨ Restorable env data := by
  constructor
  · intro one
    by_cases refuses : Refuses env data
    · exact .inl refuses
    · have recovered : ∃ after, env.recover data = .ok after := by
        by_contra blank
        exact refuses ((refuses_iff env data).2 fun after recovers => blank ⟨after, recovers⟩)
      obtain ⟨after, recovers⟩ := recovered
      refine .inr ⟨fun offset stored => ?_, fun key holds => ?_⟩
      · obtain ⟨restore, accepts, result⟩ := one.positioned after recovers offset stored
        exact ⟨restore, _, accepts, result⟩
      · obtain ⟨op, op', present, -, loaded⟩ := one.loaded after recovers key holds
        refine ⟨op, present, ?_⟩
        rcases loaded with ⟨dir, backend, load, native, has, implements, -⟩ |
          ⟨bytes, load, inline, given, implements, -⟩
        · exact .inl ⟨⟨dir, native⟩, by simp [has, implements]⟩
        · exact .inr ⟨⟨bytes, inline, given⟩, by simp [implements]⟩
  · rintro (refuses | restorable)
    · have never := (refuses_iff env data).1 refuses
      exact ⟨fun after recovers => absurd recovers (never after),
        fun after recovers => absurd recovers (never after)⟩
    · exact restorable.oneCheckpoint

/-! ## Where it starts from more than one -/

section Examples

/-- A pipeline that counts the lines of `orders.log`, in memory. -/
def counting : RestoreEnv PositionData (List Source.Position) Nat where
  source :=
    { position := []
      restoreOffset := some (Source.CheckpointSource.file "orders.log").restoreOffset }
  operators := [{ state := 0, backend := some {}, restore := some fun bytes _ => .ok bytes.length }]
  workerOps := []
  absPath _ dir := dir

def renamed : CheckpointData PositionData OwnerStates where
  id := ⟨1, 1, .periodic⟩
  source := some (.envelope 2 [⟨"old.log", 0, 3⟩])
  operators := some ⟨fun key => if key = .op 0 then some [1, 1, 1] else none, fun _ => none⟩
  status := .completed

def native : CheckpointData PositionData OwnerStates where
  id := ⟨1, 1, .periodic⟩
  source := some (.envelope 2 [⟨"orders.log", 0, 3⟩])
  operators := some ⟨fun _ => none, fun key => if key = .op 0 then some "op-0" else none⟩
  status := .completed

/-- The count of three lines is restored and the lines are read again; or the three lines are
skipped and the count is not restored. -/
theorem counting_mixed : ¬OneCheckpoint counting renamed ∧ ¬OneCheckpoint counting native := by
  constructor
  · intro one
    obtain ⟨restore, accepts, result⟩ := one.positioned _ rfl _ rfl
    cases accepts
    cases result
  · intro one
    obtain ⟨op, op', present, -, loaded⟩ := one.loaded _ rfl (.op 0) (.inl ⟨"op-0", rfl⟩)
    cases present
    rcases loaded with ⟨dir, backend, load, -, has, implements, -⟩ | ⟨bytes, load, inline, -⟩
    · cases has
      cases implements
    · cases inline

end Examples

end RestoreEnv

end Weibo.Engine
