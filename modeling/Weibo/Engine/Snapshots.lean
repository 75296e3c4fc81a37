import Mathlib.Data.List.AList
import Weibo.Lib.Transition
import Weibo.Types.Record

/-!
# Barrier snapshots

The snapshots that operators make at a barrier stay in `barrierSnaps` until it reaches the end of
the pipeline. When a new checkpoint enters while the table holds more than eight others, an
arbitrary one is thrown out; what is missing is snapshotted from the live state.
-/

namespace Weibo.Engine

open List Option Function AList

open Transition (Reach Always run)

/-- `barrierSnaps`: the snapshots of the checkpoints in flight, by owner. -/
abbrev SnapshotTable (ω ν : Type) := AList fun _ : CheckpointID => AList fun _ : ω => ν

section Table

variable {ω ν : Type} [DecidableEq ω]

/-- Whether a snapshot for `id` makes `addBarrierSnapshot` throw out another checkpoint. -/
def evicts (table : SnapshotTable ω ν) (id : CheckpointID) : Prop :=
  table.lookup id = none ∧ 8 < table.keys.length

instance (table : SnapshotTable ω ν) (id : CheckpointID) : Decidable (evicts table id) :=
  decidable_of_iff ((table.lookup id).isNone ∧ 8 < table.keys.length) (by
    simp [evicts, isNone_iff_eq_none])

/-- `addBarrierSnapshot`; `stale` is the checkpoint the map iteration yields first. -/
def addBarrierSnapshot (table : SnapshotTable ω ν) (stale id : CheckpointID) (key : ω)
    (snapshot : ν) : SnapshotTable ω ν :=
  match table.lookup id with
  | some snaps => table.insert id (snaps.insert key snapshot)
  | none =>
    let bounded := if 8 < table.keys.length then table.erase stale else table
    bounded.insert id (AList.insert key snapshot ∅)

def barrierSnapshot (table : SnapshotTable ω ν) (id : CheckpointID) (key : ω) : Option ν :=
  (table.lookup id).bind fun snaps => snaps.lookup key

theorem barrierSnapshot_add_self (table : SnapshotTable ω ν) (stale id : CheckpointID) (key : ω)
    (snapshot : ν) :
    barrierSnapshot (addBarrierSnapshot table stale id key snapshot) id key = some snapshot := by
  simp only [addBarrierSnapshot]
  split <;> simp [barrierSnapshot, -insert_empty]

theorem barrierSnapshot_add_ne {table : SnapshotTable ω ν} {stale id other : CheckpointID}
    {key owner : ω} {snapshot : ν} (room : ¬evicts table id) (ne : other ≠ id ∨ owner ≠ key) :
    barrierSnapshot (addBarrierSnapshot table stale id key snapshot) other owner =
      barrierSnapshot table other owner := by
  by_cases same : other = id
  · subst same
    have differs : owner ≠ key := ne.resolve_left fun h => h rfl
    cases found : table.lookup other with
    | some snaps => simp [addBarrierSnapshot, barrierSnapshot, found, differs]
    | none => simp [addBarrierSnapshot, barrierSnapshot, found, differs, -insert_empty]
  · cases found : table.lookup id with
    | some snaps => simp [addBarrierSnapshot, barrierSnapshot, found, same]
    | none =>
      have small : ¬8 < table.keys.length := fun large => room ⟨found, large⟩
      simp [addBarrierSnapshot, barrierSnapshot, found, same, small]

theorem barrierSnapshot_erase_ne {table : SnapshotTable ω ν} {id other : CheckpointID}
    (ne : other ≠ id) (owner : ω) :
    barrierSnapshot (table.erase id) other owner = barrierSnapshot table other owner := by
  simp [barrierSnapshot, ne]

end Table

structure StatefulPlan (ω σ ν : Type) where
  owners : List ω
  initial : ω → σ
  process : ω → σ → Record → σ
  snapshot : ω → σ → ν

structure StoredState (ω ν : Type) where
  id : CheckpointID
  entries : ω → Option ν

structure SnapshotRun (ω σ ν : Type) where
  live : ω → σ
  injected : List CheckpointID := []
  passed : ω → Nat := fun _ => 0
  table : SnapshotTable ω ν := ∅
  taken : CheckpointID → ω → Option ν := fun _ _ => none
  collected : Nat := 0
  pending : List (StoredState ω ν) := []
  saved : List (StoredState ω ν) := []

inductive SnapshotEvent (ω : Type) where
  | inject (id : CheckpointID)
  | process (owner : ω) (record : Record)
  /-- The next barrier passes through an owner, whose snapshot call succeeds or fails;
  `stale` is the checkpoint an eviction would hit. -/
  | barrier (owner : ω) (succeeds : Bool) (stale : CheckpointID)
  /-- The next barrier reaches the end of the pipeline; `fallback` says for which owners a
  snapshot of the live state succeeds. -/
  | collect (fallback : ω → Bool)
  | save (succeeds : Bool)

namespace SnapshotRun

variable {ω σ ν : Type} [DecidableEq ω]

def start (plan : StatefulPlan ω σ ν) : SnapshotRun ω σ ν :=
  { live := plan.initial }

/-- `collectSnapshots`: what the barrier left behind, or else a snapshot of the live state. -/
def collectSnapshots (plan : StatefulPlan ω σ ν) (s : SnapshotRun ω σ ν) (fallback : ω → Bool)
    (id : CheckpointID) (owner : ω) : Option ν :=
  match barrierSnapshot s.table id owner with
  | some snapshot => some snapshot
  | none => if fallback owner then some (plan.snapshot owner (s.live owner)) else none

/-- The barrier `id` passes through an owner. A failed snapshot call is only reported. -/
def passBarrier (plan : StatefulPlan ω σ ν) (s : SnapshotRun ω σ ν) (owner : ω) (succeeds : Bool)
    (stale id : CheckpointID) : SnapshotRun ω σ ν :=
  let onward := { s with passed := update s.passed owner (s.passed owner + 1) }
  if succeeds then
    let snapshot := plan.snapshot owner (s.live owner)
    { onward with
      table := addBarrierSnapshot s.table stale id owner snapshot
      taken := update s.taken id (update (s.taken id) owner (some snapshot)) }
  else onward

def step (plan : StatefulPlan ω σ ν) (s : SnapshotRun ω σ ν) :
    SnapshotEvent ω → Option (SnapshotRun ω σ ν)
  | .inject id => if id ∈ s.injected then none else some { s with injected := s.injected ++ [id] }
  | .process owner record =>
    some { s with live := update s.live owner (plan.process owner (s.live owner) record) }
  | .barrier owner succeeds stale =>
    if owner ∈ plan.owners then
      (s.injected[s.passed owner]?).bind fun id =>
        if succeeds ∧ evicts s.table id ∧ stale ∉ s.table then none
        else some (s.passBarrier plan owner succeeds stale id)
    else none
  | .collect fallback =>
    -- the channels are FIFO: a barrier arrives after it has passed every owner
    if ∀ owner ∈ plan.owners, s.collected < s.passed owner then
      (s.injected[s.collected]?).map fun id =>
        { s with
          collected := s.collected + 1
          table := s.table.erase id
          pending := s.pending ++ [⟨id, s.collectSnapshots plan fallback id⟩] }
    else none
  | .save succeeds =>
    match s.pending with
    | [] => none
    | checkpoint :: rest =>
      some { s with
        pending := rest
        saved := if succeeds then s.saved ++ [checkpoint] else s.saved }

/-- The checkpoint holds what every owner took at its barrier. -/
def HoldsBarrierState (plan : StatefulPlan ω σ ν) (s : SnapshotRun ω σ ν)
    (checkpoint : StoredState ω ν) : Prop :=
  ∀ owner ∈ plan.owners, (s.taken checkpoint.id owner).isSome ∧
    checkpoint.entries owner = s.taken checkpoint.id owner

/-- A snapshot call succeeds and its checkpoint has room: it is already in the table, or the
table holds at most eight others. -/
def SnapshotKept (s : SnapshotRun ω σ ν) : SnapshotEvent ω → Prop
  | .barrier owner succeeds _ =>
    succeeds ∧ ∀ id, s.injected[s.passed owner]? = some id → ¬evicts s.table id
  | _ => True

structure Inv (plan : StatefulPlan ω σ ν) (s : SnapshotRun ω σ ν) : Prop where
  distinct : s.injected.Nodup
  behind : ∀ owner ∈ plan.owners, s.collected ≤ s.passed owner
  entered : ∀ owner ∈ plan.owners, s.passed owner ≤ s.injected.length
  tabled : ∀ k id, s.injected[k]? = some id → s.collected ≤ k →
    ∀ owner ∈ plan.owners, k < s.passed owner →
      (s.taken id owner).isSome ∧ barrierSnapshot s.table id owner = s.taken id owner
  stored : ∀ checkpoint ∈ s.pending ++ s.saved,
    (∃ k < s.collected, s.injected[k]? = some checkpoint.id) ∧ s.HoldsBarrierState plan checkpoint

theorem inv_start (plan : StatefulPlan ω σ ν) : (start plan).Inv plan where
  distinct := nodup_nil
  behind _ _ := Nat.le_refl 0
  entered _ _ := Nat.le_refl 0
  tabled k id found := by simp [start] at found
  stored checkpoint inside := by simp [start] at inside

variable {id : CheckpointID}

theorem index_unique {barriers : List CheckpointID} (distinct : barriers.Nodup) {i j : Nat}
    (first : barriers[i]? = some id) (second : barriers[j]? = some id) : i = j := by
  obtain ⟨inside, value⟩ := List.getElem?_eq_some_iff.1 first
  obtain ⟨inside', value'⟩ := List.getElem?_eq_some_iff.1 second
  exact (distinct.getElem_inj_iff).1 (value.trans value'.symm)

variable {plan : StatefulPlan ω σ ν} {s : SnapshotRun ω σ ν}

theorem Inv.inject (inv : s.Inv plan) (fresh : id ∉ s.injected) :
    Inv plan { s with injected := s.injected ++ [id] } where
  distinct := by simpa using inv.distinct.concat fresh
  behind := inv.behind
  entered owner known := by
    have bound := inv.entered owner known
    simp only [length_append, length_singleton]
    omega
  tabled k other found waiting owner known gone := by
    have early : k < s.injected.length := Nat.lt_of_lt_of_le gone (inv.entered owner known)
    rw [List.getElem?_append_left early] at found
    exact inv.tabled k other found waiting owner known gone
  stored checkpoint inside := by
    obtain ⟨⟨k, early, found⟩, holds⟩ := inv.stored checkpoint inside
    refine ⟨⟨k, early, ?_⟩, holds⟩
    have bound : k < s.injected.length := (List.getElem?_eq_some_iff.1 found).1
    exact (List.getElem?_append_left bound).trans found

theorem taken_passBarrier (plan : StatefulPlan ω σ ν) (s : SnapshotRun ω σ ν) (owner : ω)
    (stale id : CheckpointID) (other : CheckpointID) (key : ω) :
    (s.passBarrier plan owner true stale id).taken other key =
      if other = id ∧
        key = owner then some (plan.snapshot owner (s.live owner)) else s.taken other key := by
  by_cases same : other = id
  · subst same
    by_cases own : key = owner <;> simp [passBarrier, own]
  · simp [passBarrier, same]

theorem Inv.passBarrier (inv : s.Inv plan) {owner : ω} {stale : CheckpointID}
    (found : s.injected[s.passed owner]? = some id) (known : owner ∈ plan.owners)
    (room : ¬evicts s.table id) : (s.passBarrier plan owner true stale id).Inv plan where
  distinct := inv.distinct
  behind other inside := by
    have bound := inv.behind other inside
    by_cases own : other = owner
    · subst own
      simp only [SnapshotRun.passBarrier, if_true, update_self]
      omega
    · simpa [SnapshotRun.passBarrier, own] using bound
  entered other inside := by
    have bound := inv.entered other inside
    by_cases own : other = owner
    · subst own
      have early : s.passed other < s.injected.length := (List.getElem?_eq_some_iff.1 found).1
      simp only [SnapshotRun.passBarrier, if_true, update_self]
      omega
    · simpa [SnapshotRun.passBarrier, own] using bound
  tabled k other position waiting key inside gone := by
    rw [taken_passBarrier]
    by_cases same : other = id ∧ key = owner
    · obtain ⟨rfl, rfl⟩ := same
      simp [SnapshotRun.passBarrier, barrierSnapshot_add_self]
    · have apart : other ≠ id ∨ key ≠ owner := by tauto
      have earlier : k < s.passed key := by
        by_cases own : key = owner
        · subst own
          have differs : k ≠ s.passed key := by
            rintro rfl
            exact same ⟨some.inj (position.symm.trans found), rfl⟩
          simp only [SnapshotRun.passBarrier, if_true, update_self] at gone
          omega
        · simpa [SnapshotRun.passBarrier, own] using gone
      rw [if_neg same]
      simp only [SnapshotRun.passBarrier, if_true, barrierSnapshot_add_ne room apart]
      exact inv.tabled k other position waiting key inside earlier
  stored checkpoint inside := by
    obtain ⟨⟨k, early, position⟩, holds⟩ := inv.stored checkpoint inside
    refine ⟨⟨k, early, position⟩, fun key listed => ?_⟩
    -- an assembled checkpoint's barrier has passed every owner, so it is not the one passing
    have later : ¬(checkpoint.id = id ∧ key = owner) := by
      rintro ⟨rfl, rfl⟩
      have same := index_unique inv.distinct position found
      have bound := inv.behind key listed
      omega
    rw [taken_passBarrier, if_neg later]
    exact holds key listed

theorem Inv.collect (inv : s.Inv plan)
    {fallback : ω → Bool} (found : s.injected[s.collected]? = some id)
    (arrived : ∀ owner ∈ plan.owners, s.collected < s.passed owner) :
    Inv plan { s with
      collected := s.collected + 1
      table := s.table.erase id
      pending := s.pending ++ [⟨id, s.collectSnapshots plan fallback id⟩] } where
  distinct := inv.distinct
  behind := arrived
  entered := inv.entered
  tabled k other position waiting owner known gone := by
    have apart : other ≠ id := by
      rintro rfl
      have same := index_unique inv.distinct position found
      simp only at waiting
      omega
    obtain ⟨present, kept⟩ :=
      inv.tabled k other position (Nat.le_of_succ_le waiting) owner known gone
    exact ⟨present, (barrierSnapshot_erase_ne apart owner).trans kept⟩
  stored checkpoint inside := by
    have cases : checkpoint ∈ s.pending ++ s.saved ∨
        checkpoint = ⟨id, s.collectSnapshots plan fallback id⟩ := by
      simp only [mem_append, mem_singleton] at inside ⊢
      tauto
    rcases cases with old | rfl
    · obtain ⟨⟨k, early, position⟩, holds⟩ := inv.stored checkpoint old
      exact ⟨⟨k, Nat.lt_succ_of_lt early, position⟩, holds⟩
    · refine ⟨⟨s.collected, Nat.lt_succ_self _, found⟩, fun owner known => ?_⟩
      obtain ⟨present, kept⟩ :=
        inv.tabled _ id found (Nat.le_refl _) owner known (arrived owner known)
      obtain ⟨snapshot, taken⟩ := isSome_iff_exists.1 present
      refine ⟨present, ?_⟩
      simp only [collectSnapshots, kept, taken]

theorem inv_step {t : SnapshotRun ω σ ν} {event : SnapshotEvent ω} (inv : s.Inv plan)
    (kept : SnapshotKept s event) (stepped : step plan s event = some t) : t.Inv plan := by
  cases event with
  | inject id =>
    simp only [step, ite_none_left_eq_some, some.injEq] at stepped
    obtain ⟨fresh, rfl⟩ := stepped
    exact inv.inject fresh
  | process owner record =>
    cases stepped
    exact { inv with }
  | barrier owner succeeds stale =>
    simp only [step, ite_none_right_eq_some, bind_eq_some_iff,
      ite_none_left_eq_some, some.injEq] at stepped
    obtain ⟨known, id, found, -, rfl⟩ := stepped
    obtain ⟨rfl, room⟩ := kept
    exact inv.passBarrier found known (room id found)
  | collect fallback =>
    simp only [step, ite_none_right_eq_some, map_eq_some_iff] at stepped
    obtain ⟨arrived, id, found, rfl⟩ := stepped
    exact inv.collect found arrived
  | save succeeds =>
    cases waiting : s.pending with
    | nil => simp [step, waiting] at stepped
    | cons checkpoint rest =>
      simp only [step, waiting, some.injEq] at stepped
      subst stepped
      refine { inv with stored := fun other inside => ?_ }
      apply inv.stored other
      cases succeeds <;>
        · simp [waiting] at inside ⊢
          tauto

end SnapshotRun

/-- As long as every snapshot call succeeds and no checkpoint in flight is thrown out of the
table, a saved checkpoint holds for every stateful owner exactly the snapshot the owner took
when the checkpoint's barrier passed. -/
theorem saved_holds_barrier_state {ω σ ν : Type} [DecidableEq ω] (plan : StatefulPlan ω σ ν)
    (s : SnapshotRun ω σ ν) (reach : Reach (SnapshotRun.step plan) SnapshotRun.SnapshotKept
    (.start plan) s) : ∀ checkpoint ∈ s.saved, s.HoldsBarrierState plan checkpoint := by
  have inv : s.Inv plan := reach.invariant (SnapshotRun.inv_start plan)
    fun _ _ _ inv kept stepped => SnapshotRun.inv_step inv kept stepped
  intro checkpoint inside
  exact (inv.stored checkpoint (mem_append_right _ inside)).2

def countingPlan : StatefulPlan Unit Nat Nat where
  owners := [()]
  initial _ := 0
  process _ count _ := count + 1
  snapshot _ count := count

def periodicBarrier (number : Nat) : CheckpointID := ⟨0, number, .periodic⟩

/-- A record, a barrier, a second record, and only then the checkpoint: it holds the count at
the barrier. -/
theorem saved_holds_barrier_state_counting :
    ∃ s : SnapshotRun Unit Nat Nat, s.live () = 2 ∧
      (∃ checkpoint ∈ s.saved, checkpoint.entries () = some 1) ∧
      ∀ checkpoint ∈ s.saved, s.HoldsBarrierState countingPlan checkpoint := by
  have first : ∃ s, Reach (SnapshotRun.step countingPlan) SnapshotRun.SnapshotKept
      (.start countingPlan) s ∧ s.live () = 2 ∧ ∃ checkpoint ∈ s.saved,
        checkpoint.entries () = some 1 := by
    refine ⟨_, .tail (.save true) (.tail (.collect fun _ => true) (.tail (.process () {})
      (.tail (.barrier () true (periodicBarrier 1)) (.tail (.process () {})
        (.tail (.inject (periodicBarrier 1)) .refl trivial rfl) trivial rfl) ?_ rfl)
      trivial rfl) trivial rfl) trivial rfl, rfl, _, mem_singleton.2 rfl, rfl⟩
    exact ⟨rfl, by decide⟩
  obtain ⟨s, reach, live, stored⟩ := first
  exact ⟨s, live, stored, saved_holds_barrier_state countingPlan s reach⟩

/-- Ten barriers pass the operator before the first of them reaches the end of the pipeline:
the tenth throws the first out of the table, and its checkpoint gets the count of a record
that came after the barrier. -/
theorem evicted_snapshot_replaced : ¬∀ s : SnapshotRun Unit Nat Nat,
      Reach (SnapshotRun.step countingPlan) Always (.start countingPlan) s →
        ∀ checkpoint ∈ s.saved, s.HoldsBarrierState countingPlan checkpoint := by
  intro always
  obtain ⟨s, reach, facts⟩ := Reach.exists_of_run (SnapshotRun.step countingPlan)
    (.start countingPlan)
    ((List.range 10).map (fun k => SnapshotEvent.inject (periodicBarrier k)) ++
      replicate 10 (.barrier () true (periodicBarrier 0)) ++
      [.process () {}, .collect fun _ => true, .save true])
    (fun s => s.saved.any fun checkpoint =>
      decide (checkpoint.entries () ≠ s.taken checkpoint.id ())) (by decide)
  obtain ⟨checkpoint, inside, differs⟩ := List.any_eq_true.1 facts
  exact of_decide_eq_true differs (always s reach checkpoint inside () (by decide)).2

end Weibo.Engine
