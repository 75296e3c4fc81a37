import Weibo.Engine.Injector

/-!
# Positions across restarts

A run restores the positions of the latest usable checkpoint, lets records of any of its partitions
pass the injector, and injects barriers; the checkpoints are saved, or dropped, in barrier order.
The run ends at any moment, and the next one starts.
-/

namespace Weibo.Engine

open Weibo.Source List Option AList
open Transition (Reach Always run)

def recorded : PositionData → List Position
  | .envelope _ positions => positions
  | _ => []

/-- The records a source may deliver when it resumes from `seek`. -/
def Delivers (src : CheckpointSource) (seek : List Position) (r : Record) : Prop :=
  r.isMarker = false ∧ (⟨r.source, r.partition, r.offset⟩ : Position).Valid ∧
    (∀ p ∈ seek, p.key = Injector.positionKey r → p.offset ≤ r.offset) ∧
    ∀ own ∈ src.ownKey, Injector.positionKey r = own

instance (src : CheckpointSource) (seek : List Position) (r : Record) :
    Decidable (Delivers src seek r) :=
  inferInstanceAs (Decidable (r.isMarker = false ∧
    (⟨r.source, r.partition, r.offset⟩ : Position).Valid ∧
    (∀ p ∈ seek, p.key = Injector.positionKey r → p.offset ≤ r.offset) ∧
    ∀ own ∈ src.ownKey, Injector.positionKey r = own))

structure History where
  latest : Option PositionData := none
  restored : List Position := []
  seek : List Position := []
  injector : Injector
  pending : List PositionData := []
  saved : List PositionData := []

inductive HistoryEvent
  | pass (r : Record)
  | barrier
  | save
  | drop
  | complete
  | restart

namespace History

def start : History := { injector := { runNonce := 0 } }

/-- A new run: `restoreSourceOffset`, whose failure is only logged, and a fresh injector. -/
def restart (src : CheckpointSource) (h : History) : History where
  latest := h.latest
  restored := (h.latest.map recorded).getD []
  seek :=
    match h.latest.map src.restoreOffset with
    | some (.ok positions) => positions
    | _ => []
  injector := { runNonce := h.injector.runNonce + 1 }

def step (src : CheckpointSource) (h : History) : HistoryEvent → Option History
  | .pass r =>
    if r.isMarker ∨ Delivers src h.seek r then some { h with injector := h.injector.pass r }
    else none
  | .barrier =>
    some { h with
      injector := h.injector.barrier
      pending := h.pending ++ [h.injector.alignedOffsets] }
  | .save =>
    match h.pending with
    | [] => none
    | data :: rest => some { h with pending := rest, saved := h.saved ++ [data] }
  | .drop =>
    match h.pending with
    | [] => none
    | _ :: rest => some { h with pending := rest }
  | .complete =>
    match h.saved.getLast? with
    | none => none
    | some data => some { h with latest := some data }
  | .restart => some (h.restart src)

end History

/-- Saved positions keep the restored ones: the source accepts them, and every restored
stream and partition is still there with an offset at least as large. -/
def Kept (src : CheckpointSource) (restored : List Position) (data : PositionData) : Prop :=
  ∃ positions, src.restoreOffset data = .ok positions ∧
    ∀ p ∈ restored, ∃ q ∈ positions, q.key = p.key ∧ p.offset ≤ q.offset

/-- Every restored stream and partition, and for a file at least one line, has passed the
injector in this run. -/
def Covered (src : CheckpointSource) (h : History) : Prop :=
  (∀ p ∈ h.restored, p.key ∈ h.injector.offsets) ∧
    ∀ own ∈ src.ownKey, own ∈ h.injector.offsets

instance (src : CheckpointSource) (h : History) : Decidable (Covered src h) :=
  inferInstanceAs (Decidable ((∀ p ∈ h.restored, p.key ∈ h.injector.offsets) ∧
    ∀ own ∈ src.ownKey, own ∈ h.injector.offsets))

/-- A barrier is injected only while the positions are covered. -/
def BarriersCovered (src : CheckpointSource) (h : History) : HistoryEvent → Prop
  | .barrier => Covered src h
  | _ => True

instance (src : CheckpointSource) (h : History) (e : HistoryEvent) :
    Decidable (BarriersCovered src h e) :=
  match e with
  | .barrier => inferInstanceAs (Decidable (Covered src h))
  | .pass _ | .save | .drop | .complete | .restart => inferInstanceAs (Decidable True)

/-! ## The invariant of a history -/

def Accepted (src : CheckpointSource) (data : PositionData) : Prop :=
  src.restoreOffset data = .ok (recorded data)

structure History.Inv (src : CheckpointSource) (h : History) : Prop where
  latest : ∀ data ∈ h.latest, Accepted src data
  seek : h.seek = h.restored
  tracked : ∀ key offset, h.injector.offsets.lookup key = some offset →
    (⟨key.source, key.partition, offset⟩ : Position).Valid ∧ ∀ own ∈ src.ownKey, key = own
  ahead : ∀ p ∈ h.restored, ∀ offset,
    h.injector.offsets.lookup p.key = some offset → p.offset ≤ offset
  pending : ∀ data ∈ h.pending, Accepted src data ∧ Kept src h.restored data
  saved : ∀ data ∈ h.saved, Accepted src data ∧ Kept src h.restored data

variable {src : CheckpointSource} {h : History}

theorem History.inv_start : Inv src start := by
  constructor <;> simp [start]

theorem History.Inv.aligned (inv : h.Inv src) (covered : Covered src h) :
    Accepted src h.injector.alignedOffsets ∧ Kept src h.restored h.injector.alignedOffsets := by
  have valid : ∀ p ∈ h.injector.offsets.positions, p.Valid := fun p mem =>
    (inv.tracked _ _ (OffsetMap.mem_positions.1 mem)).1
  have sorted := perm_insertionSort Position.before h.injector.offsets.positions
  have decoded : ∀ legacySource, decodePositions h.injector.alignedOffsets legacySource =
      .ok (recorded h.injector.alignedOffsets) := fun legacySource =>
    decodePositions_encodePositions legacySource valid OffsetMap.nodup_positions
  have accepted : Accepted src h.injector.alignedOffsets := by
    cases src with
    | kafka legacyTopic => exact decoded legacyTopic
    | file sourceName =>
      obtain ⟨offset, found⟩ := isSome_iff_exists.1
        (lookup_isSome.2 (covered.2 ⟨sourceName, 0⟩ rfl))
      have one : h.injector.offsets.positions = [⟨sourceName, 0, offset⟩] :=
        OffsetMap.positions_eq_singleton found fun key offset here =>
          (inv.tracked key offset here).2 _ rfl
      have written : recorded h.injector.alignedOffsets = [⟨sourceName, 0, offset⟩] := by
        simp [recorded, Injector.alignedOffsets, encodePositions, one]
      have read := decoded sourceName
      rw [written] at read
      simp [Accepted, CheckpointSource.restoreOffset, read, written]
  refine ⟨accepted, recorded h.injector.alignedOffsets, accepted, fun p mem => ?_⟩
  obtain ⟨offset, found⟩ := isSome_iff_exists.1 (lookup_isSome.2 (covered.1 p mem))
  refine ⟨⟨p.source, p.partition, offset⟩, ?_, rfl, inv.ahead p mem offset found⟩
  exact sorted.mem_iff.2 (OffsetMap.mem_positions.2 found)

theorem History.Inv.pass (inv : h.Inv src) {r : Record} (delivers : Delivers src h.seek r) :
    Inv src { h with injector := h.injector.pass r } := by
  obtain ⟨data, valid, bound, own⟩ := delivers
  have moved : ∀ key offset, (h.injector.pass r).offsets.lookup key = some offset →
      (key = Injector.positionKey r ∧ offset = r.offset + 1) ∨
        h.injector.offsets.lookup key = some offset := by
    intro key offset found
    simp only [Injector.pass, data, Bool.false_eq_true, if_false] at found
    by_cases same : key = Injector.positionKey r
    · subst same
      rw [lookup_insert, some.injEq] at found
      exact .inl ⟨rfl, found.symm⟩
    · rw [lookup_insert_ne same] at found
      exact .inr found
  refine { inv with tracked := ?_, ahead := ?_ }
  · intro key offset found
    obtain ⟨rfl, rfl⟩ | before := moved key offset found
    · refine ⟨⟨valid.1, valid.2.1, ?_⟩, own⟩
      have := valid.2.2
      simp only at this ⊢
      omega
    · exact inv.tracked key offset before
  · intro p mem offset found
    obtain ⟨key, rfl⟩ | before := moved p.key offset found
    · have := bound p (inv.seek ▸ mem) key
      omega
    · exact inv.ahead p mem offset before

theorem History.Inv.restart (inv : h.Inv src) : Inv src (h.restart src) := by
  refine ⟨inv.latest, ?_, by simp [History.restart], by simp [History.restart],
    by simp [History.restart], by simp [History.restart]⟩
  cases stored : h.latest with
  | none => simp [History.restart, stored]
  | some data =>
    have accepted := inv.latest data stored
    simp only [Accepted] at accepted
    simp [History.restart, stored, accepted]

theorem History.inv_step {t : History} {e : HistoryEvent} (inv : h.Inv src)
    (covered : BarriersCovered src h e) (moves : h.step src e = some t) : Inv src t := by
  cases e with simp only [step] at moves
  | pass r =>
    obtain ⟨allowed, rfl⟩ := Transition.of_ite_some moves
    rcases allowed with marker | delivers
    · have kept : h.injector.pass r = h.injector := by simp [Injector.pass, marker]
      rw [kept]
      exact inv
    · exact inv.pass delivers
  | barrier =>
    cases moves
    have aligned := inv.aligned covered
    refine { inv with pending := ?_ }
    intro data mem
    rcases mem_append.1 mem with old | new
    · exact inv.pending data old
    · exact mem_singleton.1 new ▸ aligned
  | save =>
    split at moves
    · cases moves
    next data rest queue =>
      cases moves
      have inFlight := inv.pending
      rw [queue] at inFlight
      refine { inv with
        pending := fun other mem => inFlight other (mem_cons_of_mem _ mem), saved := ?_ }
      intro other mem
      rcases mem_append.1 mem with old | new
      · exact inv.saved other old
      · exact mem_singleton.1 new ▸ inFlight data (mem_cons_self ..)
  | drop =>
    split at moves
    · cases moves
    next data rest queue =>
      cases moves
      refine { inv with pending := fun other mem => ?_ }
      exact inv.pending other (queue ▸ mem_cons_of_mem _ mem)
  | complete =>
    split at moves
    · cases moves
    next data last =>
      cases moves
      refine { inv with latest := fun other mem => ?_ }
      cases mem
      exact (inv.saved data (mem_of_getLast? last)).1
  | restart => exact some.inj moves ▸ inv.restart

/-- In every history whose barriers are injected only after every restored stream and
partition has passed a record in the same run, each saved checkpoint keeps every restored
position, with an offset at least as large, and is accepted by the source. -/
theorem positions_kept (src : CheckpointSource) (h : History)
    (reach : Reach (History.step src) (BarriersCovered src) History.start h) :
    ∀ data ∈ h.saved, Kept src h.restored data := fun data mem =>
  have inv : h.Inv src := reach.invariant History.inv_start
    fun _ _ _ inv covered moves => History.inv_step inv covered moves
  (inv.saved data mem).2

def order (partition offset : Int) : Record := { source := "orders", partition, offset }

/-- A restart after which the one partition delivers before the barrier. -/
theorem positions_kept_resumed :
    ∃ h,
      Reach (History.step (.kafka "orders")) (BarriersCovered (.kafka "orders")) History.start h ∧
      h.restored = [⟨"orders", 0, 1⟩] ∧ h.saved = [.envelope 2 [⟨"orders", 0, 2⟩]] ∧
      ∀ data ∈ h.saved, Kept (.kafka "orders") h.restored data := by
  have reach : Reach (History.step (.kafka "orders")) (BarriersCovered (.kafka "orders"))
      History.start _ := Reach.of_guarded [.pass (order 0 0), .barrier, .save,
        .complete, .restart, .pass (order 0 1), .barrier, .save] rfl
  exact ⟨_, reach, rfl, rfl, positions_kept _ _ reach⟩

/-- Two partitions are checkpointed; after the restart one of them stays quiet, and the next
saved checkpoint has lost its position. -/
theorem quiet_partition_lost : ¬∀ h, Reach (History.step (.kafka "orders")) Always History.start h →
      ∀ data ∈ h.saved, Kept (.kafka "orders") h.restored data := by
  intro always
  have reach : Reach (History.step (.kafka "orders")) Always History.start _ :=
    Reach.of_run [.pass (order 0 0), .pass (order 1 0), .barrier, .save, .complete,
      .restart, .pass (order 0 1), .barrier, .save] rfl
  obtain ⟨positions, accepted, kept⟩ :=
    always _ reach (.envelope 2 [⟨"orders", 0, 2⟩]) (mem_singleton.2 rfl)
  obtain rfl : [⟨"orders", 0, 2⟩] = positions := Except.ok.inj accepted
  obtain ⟨q, mem, key, -⟩ := kept ⟨"orders", 1, 1⟩ (by decide)
  obtain rfl := mem_singleton.1 mem
  exact absurd key (by decide)

end Weibo.Engine
