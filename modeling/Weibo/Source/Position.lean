import Mathlib.Data.List.AList
import Mathlib.Data.List.Sort
import Weibo.Types.Record

/-!
# Source positions

A checkpoint stores the next offset of every source stream and partition. `EncodePositions` writes
them, sorted, under a version number; `DecodePositions` checks them and also reads the older
`partition → offset` form. `PositionData` is what its two parse attempts can yield.
-/

namespace Weibo.Source

open List

structure PositionKey where
  source : String
  partition : Int
  deriving DecidableEq

/-- `source.Position`: the next offset to read of one stream and partition. -/
structure Position where
  source : String
  partition : Int
  offset : Int
  deriving DecidableEq

namespace Position

def key (p : Position) : PositionKey := ⟨p.source, p.partition⟩

/-- The order in which `EncodePositions` writes positions. -/
def before (p q : Position) : Prop :=
  if p.source ≠ q.source then p.source < q.source else p.partition ≤ q.partition

instance (p q : Position) : Decidable (before p q) :=
  inferInstanceAs (Decidable (if p.source ≠ q.source then p.source < q.source
    else p.partition ≤ q.partition))

/-- `%+v` of a position. -/
def render (p : Position) : String :=
  "\x7bSource:" ++ p.source ++ " Partition:" ++ toString p.partition ++
    " Offset:" ++ toString p.offset ++ "\x7d"

/-- The positions `DecodePositions` lets through. -/
def Valid (p : Position) : Prop := p.source ≠ "" ∧ 0 ≤ p.partition ∧ 0 ≤ p.offset

instance (p : Position) : Decidable p.Valid :=
  inferInstanceAs (Decidable (p.source ≠ "" ∧ 0 ≤ p.partition ∧ 0 ≤ p.offset))

end Position

inductive PositionData
  | envelope (version : Int) (positions : List Position)
  | legacy (entries : List (String × Int))
  | malformed
  deriving DecidableEq

def encodePositions (positions : List Position) : PositionData :=
  .envelope 2 (positions.insertionSort Position.before)

/-- The validation loop of `DecodePositions`; `seen` are the keys read so far. -/
def checkPositions : List PositionKey → List Position → Except String Unit
  | _, [] => .ok ()
  | seen, p :: rest =>
    if p.Valid then
      if p.key ∈ seen then
        .error ("source positions: duplicate " ++ p.source ++ "/" ++ toString p.partition)
      else checkPositions (p.key :: seen) rest
    else .error ("source positions: invalid position " ++ p.render)

def digits : List Char → Option Int
  | [] => none
  | ds => if ds.all Char.isDigit then
      some (ds.foldl (fun n d => 10 * n + (d.toNat - '0'.toNat : Nat)) 0) else none

def atoi (text : String) : Option Int :=
  let parsed := match text.toList with
    | '-' :: ds => (digits ds).map Neg.neg
    | '+' :: ds => digits ds
    | ds => digits ds
  parsed.filter fun n => decide (-2 ^ 63 ≤ n ∧ n < 2 ^ 63)

def legacyPositions (legacySource : String) : List (String × Int) → Except String (List Position)
  | [] => .ok []
  | (text, offset) :: rest =>
    match atoi text with
    | some part =>
      if part < 0 ∨ offset < 0 then
        .error ("source positions: invalid legacy position \"" ++ text ++ "\"=" ++ toString offset)
      else (legacyPositions legacySource rest).map (⟨legacySource, part, offset⟩ :: ·)
    | none =>
      .error ("source positions: invalid legacy position \"" ++ text ++ "\"=" ++ toString offset)

def decodePositions (data : PositionData) (legacySource : String) :
    Except String (List Position) :=
  match data with
  | .envelope version positions =>
    if version ≠ 2 then .error ("source positions: unsupported version " ++ toString version)
    else (checkPositions [] positions).map fun _ => positions
  | .legacy entries =>
    if legacySource = "" then
      .error "source positions: legacy checkpoint has no unambiguous source"
    else legacyPositions legacySource entries
  | .malformed =>
    if legacySource = "" then
      .error "source positions: legacy checkpoint has no unambiguous source"
    else .error "source positions: decode"

inductive CheckpointSource
  | kafka (legacyTopic : String)
  | file (sourceName : String)
  deriving DecidableEq

def CheckpointSource.ownKey : CheckpointSource → Option PositionKey
  | .kafka _ => none
  | .file sourceName => some ⟨sourceName, 0⟩

/-- `RestoreOffset`: the positions a source resumes from, or why it refuses them. -/
def CheckpointSource.restoreOffset (src : CheckpointSource) (data : PositionData) :
    Except String (List Position) :=
  match src with
  | .kafka legacyTopic => decodePositions data legacyTopic
  | .file sourceName =>
    match decodePositions data sourceName with
    | .error e => .error e
    | .ok [p] =>
      if p.source ≠ sourceName ∨ p.partition ≠ 0 then
        .error ("file source: checkpoint belongs to " ++ p.source ++ "/" ++ toString p.partition ++
          ", want " ++ sourceName ++ "/0")
      else .ok [p]
    | .ok positions =>
      .error ("file source: expected one checkpoint position, got " ++ toString positions.length)

/-! ## What the decoder accepts -/

theorem checkPositions_eq_ok {seen : List PositionKey} {positions : List Position} :
    checkPositions seen positions = .ok () ↔ (∀ p ∈ positions, p.Valid) ∧
      (positions.map Position.key).Nodup ∧
        ∀ p ∈ positions, p.key ∉ seen := by
  induction positions generalizing seen with
  | nil => simp [checkPositions]
  | cons p rest ih =>
    simp only [checkPositions]
    by_cases valid : p.Valid
    · by_cases dup : p.key ∈ seen
      · simp [valid, dup]
      · rw [if_pos valid, if_neg dup, ih]
        simp only [mem_cons, forall_eq_or_imp, map_cons, nodup_cons, mem_map,
          not_exists, not_and, not_or]
        constructor
        · rintro ⟨valids, distinct, fresh⟩
          exact ⟨⟨valid, valids⟩, ⟨fun q mem same => (fresh q mem).1 same, distinct⟩, dup,
            fun q mem => (fresh q mem).2⟩
        · rintro ⟨⟨-, valids⟩, ⟨other, distinct⟩, -, fresh⟩
          exact ⟨valids, distinct, fun q mem => ⟨other q mem, fresh q mem⟩⟩
    · simp [valid]

theorem decodePositions_encodePositions {positions : List Position} (legacySource : String)
    (valid : ∀ p ∈ positions, p.Valid) (distinct : (positions.map Position.key).Nodup) :
    decodePositions (encodePositions positions) legacySource =
      .ok (positions.insertionSort Position.before) := by
  have sorted := perm_insertionSort Position.before positions
  have accepted : checkPositions [] (positions.insertionSort Position.before) = .ok () :=
    checkPositions_eq_ok.2 ⟨fun p mem => valid p (sorted.mem_iff.1 mem),
      (sorted.map Position.key).nodup_iff.2 distinct, by simp⟩
  simp [decodePositions, encodePositions, accepted, Except.map]

end Weibo.Source
