import Weibo.Engine.Restore
import Weibo.Pipeline.KeyedStage

/-!
# Keyed state across a restart

`BuildPlan` clones the stateful operators of a keyed stage once per partition, and `OnClone` numbers
the clones by their place in `env.workerOps`. `RouteKey` sends a key to a worker by its hash, so its
state comes back to it only if the two numberings agree.
-/

namespace Weibo.Engine

open List Option

open Checkpoint (CheckpointData)
open Pipeline (routeKey)

inductive PlanOp (α : Type)
  | keyBy (op : α)
  | stateful (op : α)
  | other (op : α)

def PlanOp.operator {α : Type} : PlanOp α → α
  | .keyBy op => op
  | .stateful op => op
  | .other op => op

structure PlannedStage (α : Type) where
  partitions : ℕ+
  ops : List α
  workers : List (List Nat)

namespace PlannedStage

variable {α : Type}

def takeStateful : List (PlanOp α) → List α
  | .stateful op :: rest => op :: takeStateful rest
  | _ => []

/-- `OnClone`: registers a clone and returns its number. -/
def onClone (workerOps : List α) (clone : α) : Nat × List α :=
  (workerOps.length, workerOps ++ [clone])

def cloneChain : List α → List α → List Nat × List α
  | workerOps, [] => ([], workerOps)
  | workerOps, op :: ops =>
    let (idx, workerOps) := onClone workerOps op
    let (chain, workerOps) := cloneChain workerOps ops
    (idx :: chain, workerOps)

def cloneWorkers (ops : List α) : Nat → List α → List (List Nat) × List α
  | 0, workerOps => ([], workerOps)
  | n + 1, workerOps =>
    let (chain, workerOps) := cloneChain workerOps ops
    let (workers, workerOps) := cloneWorkers ops n workerOps
    (chain :: workers, workerOps)

def newKeyedStage (partitions : ℕ+) (ops workerOps : List α) : PlannedStage α × List α :=
  let (workers, workerOps) := cloneWorkers ops partitions workerOps
  (⟨partitions, ops, workers⟩, workerOps)

/-- `BuildPlan` from the given position on, as far as it clones. The operators a keyed stage
has taken are passed over by the loop, and would add no clone. -/
def buildPlan (partitions : Nat → ℕ+) :
    Nat → List (PlanOp α) → List α → List (PlannedStage α) × List α
  | _, [], workerOps => ([], workerOps)
  | i, .keyBy _ :: rest, workerOps =>
    let (stage, workerOps) := newKeyedStage (partitions i) (takeStateful rest) workerOps
    let (stages, workerOps) := buildPlan partitions (i + 1) rest workerOps
    (stage :: stages, workerOps)
  | i, .stateful _ :: rest, workerOps => buildPlan partitions (i + 1) rest workerOps
  | i, .other _ :: rest, workerOps => buildPlan partitions (i + 1) rest workerOps

def owner (stage : PlannedStage α) (j : Nat) (key : Bytes) : Option OwnerID :=
  ((stage.workers[(routeKey stage.partitions key).val]?).bind (·[j]?)).map .worker

def clones (stage : PlannedStage α) : List α := (replicate stage.partitions stage.ops).flatten

/-! ## The numbers of the clones -/

theorem cloneChain_eq (workerOps ops : List α) :
    cloneChain workerOps ops = (range' workerOps.length ops.length, workerOps ++ ops) := by
  induction ops generalizing workerOps with
  | nil => simp [cloneChain]
  | cons op ops ih => simp [cloneChain, onClone, ih, range'_succ]

theorem cloneWorkers_eq (ops : List α) (n : Nat) (workerOps : List α) :
    cloneWorkers ops n workerOps =
      ((range n).map fun w => range' (workerOps.length + w * ops.length) ops.length,
        workerOps ++ (replicate n ops).flatten) := by
  induction n generalizing workerOps with
  | zero => simp [cloneWorkers]
  | succ n ih =>
    simp only [cloneWorkers, cloneChain_eq, ih, length_append, replicate_succ,
      flatten_cons, append_assoc, range_succ_eq_map, map_cons, List.map_map,
      Nat.zero_mul, Nat.add_zero, Prod.mk.injEq, cons.injEq, true_and, and_true]
    refine map_congr_left fun w _ => ?_
    simp only [Function.comp_apply, Nat.succ_eq_add_one, Nat.add_mul, Nat.one_mul]
    rw [Nat.add_right_comm, Nat.add_assoc]

variable {partitions : Nat → ℕ+} {i : Nat} {pipeline : List (PlanOp α)} {workerOps : List α}

theorem buildPlan_workerOps (partitions : Nat → ℕ+) (i : Nat) (pipeline : List (PlanOp α))
    (workerOps : List α) : (buildPlan partitions i pipeline workerOps).2 = workerOps ++
      (buildPlan partitions i pipeline workerOps).1.flatMap clones := by
  induction pipeline generalizing i workerOps with
  | nil => simp [buildPlan]
  | cons op rest ih =>
    cases op with
    | keyBy op =>
      simp only [buildPlan, newKeyedStage, cloneWorkers_eq, flatMap_cons]
      rw [ih, append_assoc, clones]
    | stateful op | other op => exact ih _ _

variable {k : Nat} {stage : PlannedStage α}

theorem workers_of_buildPlan
    (planned : (buildPlan partitions i pipeline workerOps).1[k]? = some stage) :
    stage.workers = (range stage.partitions).map fun w => range' (workerOps.length +
        (((buildPlan partitions i pipeline workerOps).1.take k).flatMap clones).length +
          w * stage.ops.length) stage.ops.length := by
  induction pipeline generalizing i workerOps k with
  | nil => simp [buildPlan] at planned
  | cons op rest ih =>
    cases op with
    | keyBy op =>
      simp only [buildPlan, newKeyedStage, cloneWorkers_eq] at planned ⊢
      cases k with
      | zero =>
        obtain rfl : _ = stage := by simpa using planned
        simp
      | succ k =>
        have later := ih (by simpa using planned)
        rw [later]
        simp only [length_append, take_succ_cons, flatMap_cons, clones, Nat.add_assoc]
    | stateful op | other op => exact ih planned

theorem ops_of_buildPlan (partitions partitions' : Nat → ℕ+) (i : Nat) (pipeline : List (PlanOp α))
    (workerOps workerOps' : List α) : (buildPlan partitions i pipeline workerOps).1.map ops =
      (buildPlan partitions' i pipeline workerOps').1.map ops := by
  induction pipeline generalizing i workerOps workerOps' with
  | nil => rfl
  | cons op rest ih =>
    cases op with
    | keyBy op =>
      simp only [buildPlan, newKeyedStage, map_cons]
      rw [ih]
    | stateful op | other op => exact ih _ _ _

variable {op : α}

theorem mem_of_takeStateful (mem : op ∈ takeStateful pipeline) : .stateful op ∈ pipeline := by
  induction pipeline with
  | nil => simp [takeStateful] at mem
  | cons first rest ih =>
    cases first with
    | stateful first =>
      rcases mem_cons.1 mem with rfl | later
      · exact mem_cons_self
      · exact .tail _ (ih later)
    | keyBy first | other first => simp [takeStateful] at mem

theorem stateful_of_buildPlan
    (planned : (buildPlan partitions i pipeline workerOps).1[k]? = some stage)
    (mem : op ∈ stage.ops) : .stateful op ∈ pipeline := by
  induction pipeline generalizing i workerOps k with
  | nil => simp [buildPlan] at planned
  | cons first rest ih =>
    cases first with
    | keyBy first =>
      simp only [buildPlan, newKeyedStage] at planned
      cases k with
      | zero =>
        obtain rfl : _ = stage := by simpa using planned
        exact .tail _ (mem_of_takeStateful mem)
      | succ k => exact .tail _ (ih (by simpa using planned))
    | stateful first | other first => exact .tail _ (ih planned)

theorem mem_buildPlan (mem : op ∈ (buildPlan partitions i pipeline workerOps).2) :
    op ∈ workerOps ∨ .stateful op ∈ pipeline := by
  rw [buildPlan_workerOps] at mem
  refine (mem_append.1 mem).imp_right fun cloned => ?_
  obtain ⟨stage, planned, inside⟩ := mem_flatMap.1 cloned
  obtain ⟨k, now⟩ := mem_iff_getElem?.1 planned
  obtain ⟨chain, copies, listed⟩ := mem_flatten.1 inside
  rw [eq_of_mem_replicate copies] at listed
  exact stateful_of_buildPlan now listed

theorem getElem?_replicate_flatten (ops : List α) {n w j : Nat} (worker : w < n)
    (op : j < ops.length) : (replicate n ops).flatten[w * ops.length + j]? = ops[j]? := by
  induction n generalizing w with
  | zero => omega
  | succ n ih =>
    rw [replicate_succ, flatten_cons]
    cases w with
    | zero => rw [Nat.zero_mul, Nat.zero_add, getElem?_append_left op]
    | succ w =>
      have behind : (w + 1) * ops.length + j - ops.length = w * ops.length + j := by
        rw [Nat.add_mul]
        omega
      rw [getElem?_append_right (by rw [Nat.add_mul]; omega), behind]
      exact ih (by omega)

theorem getElem?_buildPlan {w j : Nat}
    (planned : (buildPlan partitions i pipeline workerOps).1[k]? = some stage)
    (worker : w < stage.partitions) (op : j < stage.ops.length) :
    (buildPlan partitions i pipeline workerOps).2[workerOps.length +
      (((buildPlan partitions i pipeline workerOps).1.take k).flatMap clones).length +
        w * stage.ops.length + j]? = stage.ops[j]? := by
  rw [buildPlan_workerOps]
  generalize (buildPlan partitions i pipeline workerOps).1 = stages at planned ⊢
  obtain ⟨bound, rfl⟩ := List.getElem?_eq_some_iff.1 planned
  have split : stages.flatMap clones = (stages.take k).flatMap clones ++
      (stages[k].clones ++ (stages.drop (k + 1)).flatMap clones) := by
    conv_lhs => rw [← take_append_drop k stages, drop_eq_getElem_cons bound]
    rw [flatMap_append, flatMap_cons]
  have clone : stages[k].clones[w * stages[k].ops.length + j]? = stages[k].ops[j]? :=
    getElem?_replicate_flatten stages[k].ops worker op
  have inside : w * stages[k].ops.length + j < stages[k].clones.length := by
    by_contra outside
    rw [getElem?_eq_none (by omega)] at clone
    exact absurd clone.symm (by simpa using op)
  rw [getElem?_append_right (by omega), split, getElem?_append_right (by omega),
    getElem?_append_left (by omega), ← clone]
  congr 1
  omega

end PlannedStage

/-! ## Restarts -/

variable {π ρ ν : Type}

abbrev KeyedOperator (ν : Type) := OperatorInstance (Bytes → Option ν)

structure Deployment (ν : Type) where
  partitions : Nat → ℕ+
  workerOps : List (KeyedOperator ν)

namespace Deployment

open PlannedStage

/-- The keyed stages of a run, and `env.workerOps` when they are planned. -/
def plan (d : Deployment ν) (pipeline : List (PlanOp (KeyedOperator ν))) :
    List (PlannedStage (KeyedOperator ν)) × List (KeyedOperator ν) :=
  buildPlan d.partitions 0 pipeline d.workerOps

def clonesAhead (d : Deployment ν) (pipeline : List (PlanOp (KeyedOperator ν))) (k : Nat) : Nat :=
  d.workerOps.length + (((d.plan pipeline).1.take k).flatMap clones).length

def env (d : Deployment ν) (pipeline : List (PlanOp (KeyedOperator ν)))
    (source : SourceInstance π ρ) (absPath : CheckpointID → String → String) :
    RestoreEnv π ρ (Bytes → Option ν) where
  source := source
  operators := pipeline.map PlanOp.operator
  workerOps := (d.plan pipeline).2
  absPath := absPath

variable {d : Deployment ν} {pipeline : List (PlanOp (KeyedOperator ν))} {k j : Nat}
  {stage : PlannedStage (KeyedOperator ν)}

theorem owner_eq (planned : (d.plan pipeline).1[k]? = some stage) (op : j < stage.ops.length)
    (key : Bytes) : stage.owner j key = some (.worker (d.clonesAhead pipeline k +
      (routeKey stage.partitions key).val * stage.ops.length + j)) := by
  rw [PlannedStage.owner, workers_of_buildPlan planned]
  simp [clonesAhead, plan, op]

theorem env_owner (source : SourceInstance π ρ) (absPath : CheckpointID → String → String)
    (planned : (d.plan pipeline).1[k]? = some stage) {op : KeyedOperator ν}
    (has : stage.ops[j]? = some op) (key : Bytes) :
    ∃ id, stage.owner j key = some id ∧ (d.env pipeline source absPath).owner id = some op := by
  have bound := (List.getElem?_eq_some_iff.1 has).1
  refine ⟨_, owner_eq planned bound key, ?_⟩
  rw [← has]
  exact getElem?_buildPlan planned (routeKey stage.partitions key).isLt bound

end Deployment

open RestoreEnv

def Stores (absPath : String → String) (states : OwnerStates) (id : OwnerID) (op : KeyedOperator ν)
    (key : Bytes) (v : ν) : Prop :=
  ((nativeRestore absPath states id op).isSome ∨ (inlineRestore states id op).isSome) ∧
    ∃ op', restoreOperatorState absPath states id op = .ok op' ∧ op'.state key = some v

/-- After every recovery that succeeds, the worker `RouteKey` sends a key to holds what the
checkpoint, taken by a run of the same pipeline, stores for the key. -/
def StateFollowsKey (pipeline : List (PlanOp (KeyedOperator ν))) (before after : Deployment ν)
    (source : SourceInstance π ρ) (absPath : CheckpointID → String → String) : Prop :=
  ∀ (data : CheckpointData π OwnerStates) restored,
    (after.env pipeline source absPath).recover data = .ok restored →
    ∀ (k : Nat) (stage stage' : PlannedStage (KeyedOperator ν)),
    (before.plan pipeline).1[k]? = some stage → (after.plan pipeline).1[k]? = some stage' →
    ∀ (j : Nat) (op : KeyedOperator ν), stage.ops[j]? = some op →
      ∀ key v id, stage.owner j key = some id →
    Stores (absPath data.id) (ownerStates data) id op key v →
    ∃ id' op', stage'.owner j key = some id' ∧ restored.owner id' = some op' ∧
      op'.state key = some v

/-- Both runs number the clones of every keyed stage alike: as many are ahead of it, and
`RouteKey` sends every key to the same worker. -/
def NumbersAgree (pipeline : List (PlanOp (KeyedOperator ν))) (before after : Deployment ν) :
    Prop :=
  ∀ (k : Nat) (stage stage' : PlannedStage (KeyedOperator ν)),
    (before.plan pipeline).1[k]? = some stage → (after.plan pipeline).1[k]? = some stage' →
      stage.ops ≠ [] →
    before.clonesAhead pipeline k = after.clonesAhead pipeline k ∧
    ∀ key, (routeKey stage.partitions key).val = (routeKey stage'.partitions key).val

/-- The operators can be told apart by what they restore: a key of any stateful operator can
have been stored alone, other operators accept its bytes, and a reset leaves no key. -/
structure Distinguishing (pipeline : List (PlanOp (KeyedOperator ν)))
    (env : RestoreEnv π ρ (Bytes → Option ν)) : Prop where
  writes : ∀ op, .stateful op ∈ pipeline → ∀ key, ∃ v bytes load state, bytes ≠ [] ∧
    op.restore = some load ∧ load bytes op.state = .ok state ∧ state key = some v ∧
    ∀ id other load', env.owner id = some other → other.restore = some load' →
      ∃ state', load' bytes other.state = .ok state'
  resets : ∀ id op, env.owner id = some op → ∃ op', resetOperatorState id op = .ok op'
  starts : ∀ op, .stateful op ∈ pipeline →
    ∀ id (op' : KeyedOperator ν), resetOperatorState id op = .ok op' →
    ∀ key, op'.state key = none

section Restart

open Deployment

variable {pipeline : List (PlanOp (KeyedOperator ν))} {before after : Deployment ν}
  {source : SourceInstance π ρ} {absPath : CheckpointID → String → String}

theorem ops_eq {k : Nat} {stage stage' : PlannedStage (KeyedOperator ν)}
    (planned : (before.plan pipeline).1[k]? = some stage)
    (planned' : (after.plan pipeline).1[k]? = some stage') : stage.ops = stage'.ops := by
  have same :
    (before.plan pipeline).1.map PlannedStage.ops = (after.plan pipeline).1.map PlannedStage.ops :=
    PlannedStage.ops_of_buildPlan _ _ _ _ _ _
  have now := congrArg (·[k]?) same
  simpa [planned, planned'] using now

theorem NumbersAgree.stateFollowsKey (agree : NumbersAgree pipeline before after) :
    StateFollowsKey pipeline before after source absPath := by
  intro data restored recovers k stage stage' planned planned' j op has key v id owned stores
  have same := ops_eq planned planned'
  have bound := (List.getElem?_eq_some_iff.1 has).1
  obtain ⟨ahead, routes⟩ := agree k stage stage' planned planned' (ne_nil_of_length_pos (by omega))
  obtain ⟨id', owned', present⟩ := env_owner source absPath planned' (same ▸ has) key
  have unmoved : id' = id := by
    rw [owner_eq planned bound] at owned
    rw [owner_eq planned' (same ▸ bound), ← ahead, ← routes, ← same, owned] at owned'
    exact (some.inj owned').symm
  subst unmoved
  obtain ⟨op', there, restores⟩ := owner_of_recover recovers present
  obtain ⟨-, op'', restores', holds⟩ := stores
  have one : op' = op'' := Except.ok.inj (restores.symm.trans restores')
  exact ⟨id', op', owned', there, one ▸ holds⟩

def onlyBytes (id : OwnerID) (bytes : Bytes) : CheckpointData π OwnerStates where
  id := ⟨0, 0, .periodic⟩
  source := none
  operators := some ⟨fun key => if key = id then some bytes else none, fun _ => none⟩
  status := .completed

variable {bytes : Bytes} {op : KeyedOperator ν}

theorem restore_onlyBytes_of_none (path : String → String) {id key : OwnerID}
    (missing : key ≠ id ∨ op.restore = none) :
    restoreOperatorState path (ownerStates (onlyBytes (π := π) id bytes)) key op =
      resetOperatorState key op := by
  have native : nativeRestore path (ownerStates (onlyBytes (π := π) id bytes)) key op = none := rfl
  have inline : inlineRestore (ownerStates (onlyBytes (π := π) id bytes)) key op = none := by
    rcases missing with other | unsupported
    · simp only [inlineRestore, ownerStates, onlyBytes, getD_some, if_neg other]
      cases op.restore <;> rfl
    · simp [inlineRestore, unsupported]
  simp only [restoreOperatorState, native, inline]

theorem inlineRestore_onlyBytes (id : OwnerID) (given : bytes ≠ [])
    {load : Bytes → (Bytes → Option ν) → Except String (Bytes → Option ν)}
    (implements : op.restore = some load) : inlineRestore
    (ownerStates (onlyBytes (π := π) id bytes)) id op = some (load bytes op.state) := by
  simp [inlineRestore, ownerStates, onlyBytes, implements, length_pos_iff.2 given]

theorem restore_onlyBytes (path : String → String) (id : OwnerID) (given : bytes ≠ [])
    {load : Bytes → (Bytes → Option ν) → Except String (Bytes → Option ν)}
    (implements : op.restore = some load) {state : Bytes → Option ν}
    (loads : load bytes op.state = .ok state) :
    restoreOperatorState path (ownerStates (onlyBytes (π := π) id bytes)) id op =
      .ok { op with state } := by
  have native : nativeRestore path (ownerStates (onlyBytes (π := π) id bytes)) id op = none := rfl
  have inline := inlineRestore_onlyBytes (π := π) id given implements
  simp only [restoreOperatorState, native, inline, loads]

theorem owner_eq_of_stateFollowsKey
    (distinct : Distinguishing pipeline (after.env pipeline source absPath))
    (follows : StateFollowsKey pipeline before after source absPath) {k : Nat} {stage stage' :
    PlannedStage (KeyedOperator ν)} (planned : (before.plan pipeline).1[k]? = some stage)
    (planned' : (after.plan pipeline).1[k]? = some stage') {j : Nat} (has : stage.ops[j]? = some op)
    (key : Bytes) : stage.owner j key = stage'.owner j key := by
  have same := ops_eq planned planned'
  have bound := (List.getElem?_eq_some_iff.1 has).1
  have stateful := PlannedStage.stateful_of_buildPlan planned (mem_of_getElem? has)
  obtain ⟨v, bytes, load, state, given, implements, loads, holds, accepted⟩ :=
    distinct.writes op stateful key
  have owned := owner_eq planned bound key
  generalize OwnerID.worker _ = id at owned
  obtain ⟨id', owned', present⟩ := env_owner source absPath planned' (same ▸ has) key
  by_contra moved
  have apart : id' ≠ id := by
    rintro rfl
    exact moved (owned.trans owned'.symm)
  -- the key is stored alone, so nothing else is restored
  let data : CheckpointData π OwnerStates := onlyBytes id bytes
  have recovered : ∃ restored, (after.env pipeline source absPath).recover data = .ok restored := by
    by_contra refused
    obtain ⟨key', other, e, inside, fails⟩ := (refuses_iff _ data).2 fun restored recovers =>
      refused ⟨restored, recovers⟩
    by_cases loadable : key' = id ∧ ∃ load', other.restore = some load'
    · obtain ⟨rfl, load', implements'⟩ := loadable
      obtain ⟨state', accepts⟩ := accepted key' other load' inside implements'
      cases (restore_onlyBytes _ _ given implements' accepts).symm.trans fails
    · have missing : key' ≠ id ∨ other.restore = none := by
        by_contra present
        rw [not_or, not_not, ← ne_eq, ne_none_iff_exists'] at present
        exact loadable present
      obtain ⟨op', resets⟩ := distinct.resets key' other inside
      rw [restore_onlyBytes_of_none _ missing, resets] at fails
      cases fails
  obtain ⟨restored, recovers⟩ := recovered
  have stores : Stores (absPath data.id) (ownerStates data) id op key v := by
    refine ⟨.inr ?_, { op with state }, restore_onlyBytes _ _ given implements loads, holds⟩
    rw [inlineRestore_onlyBytes id given implements]
    rfl
  obtain ⟨id'', op', owned'', there, keeps⟩ :=
    follows data restored recovers k stage stage' planned planned' j op has key v id owned stores
  obtain rfl : id' = id'' := some.inj (owned'.symm.trans owned'')
  obtain ⟨op'', there', restores⟩ := owner_of_recover recovers present
  obtain rfl : op' = op'' := some.inj (there.symm.trans there')
  rw [restore_onlyBytes_of_none _ (.inl apart)] at restores
  cases (distinct.starts op stateful id' op' restores key).symm.trans keeps

theorem routeKey_nil (n : Nat) [NeZero n] : (routeKey n []).val = 0 := by
  simp [routeKey]

/-- For all partition counts and any clones left by earlier calls of `Execute`: the state of every
key is restored into the worker that will see the key if the two runs number the clones of their
keyed stages alike, and only then, unless the operators refuse or cannot tell the states apart. -/
theorem state_follows_key_iff (pipeline : List (PlanOp (KeyedOperator ν)))
    (before after : Deployment ν) (source : SourceInstance π ρ) (absPath : CheckpointID → String →
      String) :
    (NumbersAgree pipeline before after → StateFollowsKey pipeline before after source absPath) ∧
    (Distinguishing pipeline (after.env pipeline source absPath) →
      StateFollowsKey pipeline before after source absPath →
        NumbersAgree pipeline before after) := by
  refine ⟨NumbersAgree.stateFollowsKey,
    fun distinct follows k stage stage' planned planned' given => ?_⟩
  have positive : 0 < stage.ops.length := length_pos_iff.2 given
  have same := ops_eq planned planned'
  have agree : ∀ key, before.clonesAhead pipeline k +
      (routeKey stage.partitions key).val * stage.ops.length =
      after.clonesAhead pipeline k + (routeKey stage'.partitions key).val * stage.ops.length := by
    intro key
    have owners := owner_eq_of_stateFollowsKey distinct follows planned planned'
      (getElem?_eq_getElem positive) key
    rw [owner_eq planned positive, owner_eq planned' (same ▸ positive), ← same] at owners
    simpa using owners
  have ahead : before.clonesAhead pipeline k = after.clonesAhead pipeline k := by
    have first := agree []
    rwa [routeKey_nil, routeKey_nil, Nat.zero_mul, Nat.add_zero, Nat.add_zero] at first
  refine ⟨ahead, fun key => ?_⟩
  have workers := agree key
  rw [ahead] at workers
  exact Nat.eq_of_mul_eq_mul_right positive (Nat.add_left_cancel workers)

end Restart

/-! ## Where state is left behind -/

section Examples

def names : KeyedOperator Unit where
  state _ := none
  backend := some {}
  restore := some fun bytes _ => .ok fun key => if bytes = 0 :: key then some () else none

def naming : List (PlanOp (KeyedOperator Unit)) :=
  [.keyBy { state := fun _ => none }, .stateful names]

def unpositioned : SourceInstance Unit Unit where
  position := ()

theorem naming_distinguishing (partitions : Nat → ℕ+) (earlier : Nat) :
    Distinguishing naming (Deployment.env ⟨partitions, replicate earlier names⟩ naming unpositioned
      fun _ dir => dir) := by
  have only : ∀ op, .stateful op ∈ naming → op = names := by simp [naming]
  have instances : ∀ id op, (Deployment.env ⟨partitions, replicate earlier names⟩ naming
      unpositioned fun _ dir => dir).owner id = some op →
      op = names ∨ op = { state := fun _ => none } := by
    intro id op owned
    cases id with
    | op i =>
      have template : op ∈ naming.map PlanOp.operator := mem_of_getElem? owned
      simpa [naming, PlanOp.operator, or_comm] using template
    | worker i =>
      rcases PlannedStage.mem_buildPlan (mem_of_getElem? owned) with earlier | cloned
      · exact .inl (eq_of_mem_replicate earlier)
      · exact .inl (only op cloned)
  refine ⟨fun op stateful key => ?_, fun id op owned => ?_, fun op stateful id op' resets key => ?_⟩
  · obtain rfl := only op stateful
    refine ⟨(), 0 :: key, _, _,
      by simp, rfl, rfl, by simp, fun id other load' owned implements => ?_⟩
    rcases instances id other owned with rfl | rfl
    · cases implements
      exact ⟨_, rfl⟩
    · cases implements
  · rcases instances id op owned with rfl | rfl
    · exact ⟨names, rfl⟩
    · exact ⟨_, rfl⟩
  · obtain rfl := only op stateful
    cases resets
    rfl

/-- The state of a key stays in a worker that will not see it when the pipeline is restarted
with two partitions instead of one, and when the environment has executed it before. -/
theorem naming_left_behind :
    ¬StateFollowsKey naming ⟨fun _ => 1, []⟩ ⟨fun _ => 2, []⟩ unpositioned (fun _ dir => dir) ∧
    ¬StateFollowsKey naming ⟨fun _ => 1, []⟩ ⟨fun _ => 1, [names]⟩ unpositioned
    (fun _ dir => dir) := by
  constructor
  · intro follows
    have moved := owner_eq_of_stateFollowsKey (naming_distinguishing (fun _ => 2) 0) follows
      (k := 0) rfl rfl (j := 0) rfl [2]
    exact absurd moved (by decide)
  · intro follows
    have moved := owner_eq_of_stateFollowsKey (naming_distinguishing (fun _ => 1) 1) follows
      (k := 0) rfl rfl (j := 0) rfl [2]
    exact absurd moved (by decide)

end Examples

end Weibo.Engine
