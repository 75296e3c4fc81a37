import Mathlib.Data.String.Basic
import Weibo.Source.Position

/-!
# Stored source positions

What the encoder writes is read back, sorted. Whatever the decoder accepts is valid; no two
positions of a versioned list share a partition, and those of a legacy map do if two of its texts
are the same number.
-/

namespace Weibo.Source

open List

/-- `encoding/json` on stored positions: `json.Marshal` of a `positionEnvelope` and `json.Unmarshal`
into one and into a map, which may fail. What it marshals it reads back. -/
structure PositionCodec (δ : Type) where
  marshal : Int → List Position → δ
  envelope : δ → Option (Int × List Position)
  legacy : δ → Option (List (String × Int))
  envelope_marshal :
    ∀ version positions, envelope (marshal version positions) = some (version, positions)

namespace PositionCodec

variable {δ : Type} (codec : PositionCodec δ)

/-- The second attempt of `DecodePositions`. -/
def parseLegacy (data : δ) : PositionData :=
  match codec.legacy data with
  | some entries => .legacy entries
  | none => .malformed

/-- The two attempts of `DecodePositions`: an object without a version unmarshals into an envelope
too. -/
def parse (data : δ) : PositionData :=
  match codec.envelope data with
  | some (version, positions) =>
    if version ≠ 0 then .envelope version positions else codec.parseLegacy data
  | none => codec.parseLegacy data

/-- `EncodePositions`, with the bytes. -/
def encode (positions : List Position) :
    δ := codec.marshal 2 (positions.insertionSort Position.before)

/-- `DecodePositions`, from the bytes. -/
def decode (data : δ) (legacySource : String) : Except String (List Position) :=
  decodePositions (codec.parse data) legacySource

theorem parse_encode (positions : List Position) :
    codec.parse (codec.encode positions) = encodePositions positions := by
  simp [parse, encode, codec.envelope_marshal, encodePositions]

end PositionCodec

instance totalBefore : Std.Total Position.before := ⟨fun p q => by
  unfold Position.before
  by_cases same : p.source = q.source
  · simpa [same] using le_total p.partition q.partition
  · simpa [same, Ne.symm same] using lt_or_gt_of_ne same⟩

instance transBefore : IsTrans Position Position.before := ⟨fun p q r first second => by
  unfold Position.before at *
  by_cases front : p.source = q.source
  · by_cases back : q.source = r.source
    · simp only [front, back, ne_eq, not_true_eq_false, if_false] at first second ⊢
      exact first.trans second
    · simpa [front, back] using second
  · by_cases back : q.source = r.source
    · simpa [← back, front] using first
    · simp only [ne_eq, front, back, not_false_eq_true, if_true] at first second
      have less := first.trans second
      simp [less.ne, less]⟩

theorem legacyPositions_eq {legacySource : String} {entries : List (String × Int)}
    {positions : List Position}
    (read : legacyPositions legacySource entries = .ok positions) (named : legacySource ≠ "") :
    (∀ p ∈ positions, p.Valid ∧ p.source = legacySource) ∧
      positions.map (some ·.partition) = entries.map fun entry => atoi entry.1 := by
  induction entries generalizing positions with
  | nil =>
    cases read
    simp
  | cons entry rest ih =>
    obtain ⟨text, offset⟩ := entry
    simp only [legacyPositions] at read
    split at read
    · next part number =>
      split at read
      · cases read
      · next fits =>
        cases more : legacyPositions legacySource rest with rw [more] at read
        | error e =>
          cases read
        | ok tail =>
          cases read
          obtain ⟨valid, numbers⟩ := ih more
          rw [not_or, Int.not_lt, Int.not_lt] at fits
          refine ⟨?_, by simp [numbers, number]⟩
          rintro p (_ | ⟨_, mem⟩)
          · exact ⟨⟨named, fits⟩, rfl⟩
          · exact valid p mem
    · cases read

theorem nodup_key_iff {legacySource : String} {positions : List Position}
    (single : ∀ p ∈ positions, p.source = legacySource) :
    (positions.map Position.key).Nodup ↔ (positions.map (some ·.partition)).Nodup := by
  simp only [Nodup, pairwise_map]
  refine List.Pairwise.iff_of_mem fun {p q} first second => ?_
  simp [Position.key, single p first, single q second]

/-- Valid positions of different partitions are read back, sorted. Whatever is accepted is valid,
and no two positions share a partition if and only if no two texts of a legacy map denote one
number. -/
theorem positions_decoded {δ : Type} (codec : PositionCodec δ) :
    (∀ positions legacySource, (∀ p ∈ positions, p.Valid) → (positions.map Position.key).Nodup →
      ∃ sorted, codec.decode (codec.encode positions) legacySource = .ok sorted ∧
        sorted.Perm positions ∧ sorted.Pairwise Position.before) ∧
    ∀ data legacySource positions, codec.decode data legacySource = .ok positions →
      (∀ p ∈ positions, p.Valid) ∧ ((positions.map Position.key).Nodup ↔
        ∀ entries, codec.parse data = .legacy entries →
          (entries.map fun entry => atoi entry.1).Nodup) := by
  refine ⟨fun positions legacySource valid distinct => ?_,
    fun data legacySource positions read => ?_⟩
  · rw [PositionCodec.decode, codec.parse_encode]
    exact ⟨_, decodePositions_encodePositions legacySource valid distinct, perm_insertionSort _ _,
      pairwise_insertionSort _ _⟩
  · rw [PositionCodec.decode] at read
    cases form : codec.parse data with rw [form, decodePositions] at read
    | malformed =>
      split at read <;> cases read
    | envelope version listed =>
      split at read
      · cases read
      · cases checked : checkPositions [] listed with rw [checked] at read
        | error e =>
          cases read
        | ok u =>
          cases read
          obtain ⟨valid, distinct, -⟩ := checkPositions_eq_ok.1 checked
          exact ⟨valid, fun _ entries other => (by cases other), fun _ => distinct⟩
    | legacy entries =>
      split at read
      · cases read
      · next named =>
        obtain ⟨valid, numbers⟩ := legacyPositions_eq read named
        refine ⟨fun p mem => (valid p mem).1, ?_⟩
        rw [nodup_key_iff fun p mem => (valid p mem).2, numbers]
        exact ⟨fun distinct _ is => by cases is; exact distinct, fun all => all entries rfl⟩

/-- The objects that are stored: an envelope, or partitions with their offsets, which read as an
envelope without its fields. -/
def storedObjects : PositionCodec ((Int × List Position) ⊕ List (String × Int)) where
  marshal version positions := .inl (version, positions)
  envelope
    | .inl read => some read
    | .inr _ => some (0, [])
  legacy
    | .inl _ => none
    | .inr entries => some entries
  envelope_marshal _ _ := rfl

/-- Two positions come back in order, and two legacy partitions are told apart. -/
theorem positions_decoded_two :
    (∃ sorted,
      storedObjects.decode (storedObjects.encode [⟨"b", 0, 7⟩, ⟨"a", 1, 5⟩]) "" = .ok sorted ∧
      sorted.Perm [⟨"b", 0, 7⟩, ⟨"a", 1, 5⟩] ∧ sorted.Pairwise Position.before) ∧
    storedObjects.decode (.inr [("0", 3), ("1", 5)]) "t" = .ok [⟨"t", 0, 3⟩, ⟨"t", 1, 5⟩] ∧
    ([⟨"t", 0, 3⟩, ⟨"t", 1, 5⟩].map Position.key).Nodup := by
  obtain ⟨reads, accepts⟩ := positions_decoded storedObjects
  have legacy :
    storedObjects.decode (.inr [("0", 3), ("1", 5)]) "t" = .ok [⟨"t", 0, 3⟩, ⟨"t", 1, 5⟩] := by
    decide
  refine ⟨reads _ "" (by decide) (by decide), legacy,
    (accepts _ _ _ legacy).2.2 fun entries is => ?_⟩
  cases is
  decide

/-- Two texts of one partition. -/
theorem legacy_repeats :
    storedObjects.decode (.inr [("1", 5), ("01", 7)]) "t" = .ok [⟨"t", 1, 5⟩, ⟨"t", 1, 7⟩] := by
  decide

end Weibo.Source
