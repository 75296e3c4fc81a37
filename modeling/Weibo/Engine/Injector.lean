import Weibo.Lib.Transition
import Weibo.Source.Position

/-!
# The barrier injector and the positions it aligns

Every data record that passes `injectBarriers` advances the position of its stream and partition in
a map that starts empty in each run; a barrier registers an encoding of the map under its checkpoint
id.
-/

namespace Weibo.Engine

open Weibo.Source List AList

abbrev OffsetMap := AList fun _ : PositionKey => Int

/-- The positions of an offset map, in the order `registerAlignedOffsets` collects them. -/
def OffsetMap.positions (offsets : OffsetMap) : List Position :=
  offsets.entries.map fun e => ⟨e.1.source, e.1.partition, e.2⟩

/-- The variables of one `injectBarriers` goroutine. -/
structure Injector where
  runNonce : Nat
  checkpointID : Nat := 0
  offsets : OffsetMap := ∅

namespace Injector

/-- `CheckpointPosition`: the key a record's offset is tracked under. -/
def positionKey (r : Record) : PositionKey := ⟨r.source, r.partition⟩

def pass (inj : Injector) (r : Record) : Injector :=
  if r.isMarker then inj
  else { inj with offsets := inj.offsets.insert (positionKey r) (r.offset + 1) }

/-- `mkID` after the counter was raised. -/
def nextID (inj : Injector) (kind : BarrierKind) : CheckpointID :=
  ⟨inj.runNonce, inj.checkpointID + 1, kind⟩

/-- What `registerAlignedOffsets` stores for a barrier injected now. -/
def alignedOffsets (inj : Injector) : PositionData := encodePositions inj.offsets.positions

def barrier (inj : Injector) : Injector := { inj with checkpointID := inj.checkpointID + 1 }

end Injector

/-! ## Lemmas about offset maps -/

namespace OffsetMap

variable {offsets : OffsetMap}

theorem mem_positions
    {p : Position} : p ∈ offsets.positions ↔ offsets.lookup p.key = some p.offset := by
  rw [positions, List.mem_map]
  constructor
  · rintro ⟨⟨key, offset⟩, mem, rfl⟩
    exact mem_lookup_iff.2 mem
  · intro found
    exact ⟨⟨p.key, p.offset⟩, mem_lookup_iff.1 found, rfl⟩

theorem nodup_positions : (offsets.positions.map Position.key).Nodup := by
  have distinct : (offsets.entries.map Sigma.fst).Nodup := offsets.nodupKeys
  have same : offsets.positions.map Position.key = offsets.entries.map Sigma.fst := by
    rw [positions, List.map_map]
    rfl
  exact same ▸ distinct

theorem positions_eq_singleton {p : Position} (found : offsets.lookup p.key = some p.offset)
    (only : ∀ key offset, offsets.lookup key = some offset → key = p.key) :
    offsets.positions = [p] := by
  have all : ∀ q ∈ offsets.positions, q = p := by
    intro q mem
    have here := mem_positions.1 mem
    have key := only q.key q.offset here
    rw [key, found, Option.some.injEq] at here
    cases q
    cases p
    simp_all [Position.key]
  have copies := eq_replicate_of_mem all
  have distinct : (offsets.positions.map Position.key).Nodup := nodup_positions
  rw [copies, map_replicate, nodup_replicate] at distinct
  have inside := length_pos_of_mem (mem_positions.2 found)
  rw [copies, show offsets.positions.length = 1 by omega]
  rfl

end OffsetMap

end Weibo.Engine
