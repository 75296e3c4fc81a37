import Mathlib.Data.List.Basic

/-!
# Bytes as Unicode text

An encoder keeps a sequence of bytes that is the UTF-8 form of a character, and replaces a byte that
starts none by U+FFFD. `coerce` is what comes out. It keeps exactly the byte strings that are
`Valid`, and makes every other one longer.
-/

namespace Utf8

open List

def isTail (b : UInt8) : Bool := decide (0x80 ≤ b ∧ b ≤ 0xBF)

/-- What may follow the first byte of a longer character: the range of the second byte, and how
many more bytes there are. Overlong forms, surrogates and values above U+10FFFF are left out. -/
def second (b : UInt8) : Option (UInt8 × UInt8 × Nat) :=
  if 0xC2 ≤ b ∧ b ≤ 0xDF then some (0x80, 0xBF, 0)
  else if b = 0xE0 then some (0xA0, 0xBF, 1)
  else if b = 0xED then some (0x80, 0x9F, 1)
  else if 0xE1 ≤ b ∧ b ≤ 0xEF then some (0x80, 0xBF, 1)
  else if b = 0xF0 then some (0x90, 0xBF, 2)
  else if b = 0xF4 then some (0x80, 0x8F, 2)
  else if 0xF1 ≤ b ∧ b ≤ 0xF3 then some (0x80, 0xBF, 2)
  else none

/-- How many bytes of `rest` belong to the character that starts with `b`, if one does. -/
def follow (b : UInt8) (rest : List UInt8) : Option Nat :=
  if b < 0x80 then some 0
  else
    match second b, rest with
    | some (low, high, more), c :: rest =>
      if low ≤ c ∧ c ≤ high ∧ more ≤ rest.length ∧ (rest.take more).all isTail then some (more + 1)
      else none
    | _, _ => none

def replacement : List UInt8 := [0xEF, 0xBF, 0xBD]

/-- The text form of some bytes, the first `skip` of which belong to a character already read. -/
def coerceFrom : Nat → List UInt8 → List UInt8
  | _, [] => []
  | skip + 1, b :: rest => b :: coerceFrom skip rest
  | 0, b :: rest =>
    match follow b rest with
    | some more => b :: coerceFrom more rest
    | none => replacement ++ coerceFrom 0 rest

def coerce (bytes : List UInt8) : List UInt8 := coerceFrom 0 bytes

/-- Whether some bytes are text, the first `skip` of which belong to a character already read. -/
def validFrom : Nat → List UInt8 → Bool
  | _, [] => true
  | skip + 1, _ :: rest => validFrom skip rest
  | 0, b :: rest =>
    match follow b rest with
    | some more => validFrom more rest
    | none => false

def Valid (bytes : List UInt8) : Prop := validFrom 0 bytes = true

instance (bytes : List UInt8) : Decidable (Valid bytes) :=
  inferInstanceAs (Decidable (validFrom 0 bytes = true))

/-! ## What is kept -/

variable {bytes : List UInt8}

theorem coerceFrom_of_valid {skip : Nat} (valid : validFrom skip bytes = true) :
    coerceFrom skip bytes = bytes := by
  induction bytes generalizing skip with
  | nil => cases skip <;> rfl
  | cons b rest ih =>
    cases skip with simp only [validFrom] at valid
    | succ skip =>
      rw [coerceFrom, ih valid]
    | zero =>
      cases reads : follow b rest with
      | none => simp [reads] at valid
      | some more =>
        simp only [reads] at valid
        simp only [coerceFrom, reads]
        rw [ih valid]

theorem length_coerceFrom (skip : Nat) (bytes : List UInt8) :
    bytes.length ≤ (coerceFrom skip bytes).length ∧
      (validFrom skip bytes = false → bytes.length < (coerceFrom skip bytes).length) := by
  induction bytes generalizing skip with
  | nil => cases skip <;> simp [coerceFrom, validFrom]
  | cons b rest ih =>
    cases skip with
    | succ skip =>
      obtain ⟨longer, strict⟩ := ih skip
      simp only [coerceFrom, validFrom, length_cons]
      exact ⟨by omega, fun invalid => by have := strict invalid; omega⟩
    | zero =>
      cases reads : follow b rest with
      | none =>
        obtain ⟨longer, -⟩ := ih 0
        simp only [coerceFrom, validFrom, reads, replacement, length_append, length_cons,
          length_nil]
        exact ⟨by omega, fun _ => by omega⟩
      | some more =>
        obtain ⟨longer, strict⟩ := ih more
        simp only [coerceFrom, validFrom, reads, length_cons]
        exact ⟨by omega, fun invalid => by have := strict invalid; omega⟩

theorem length_le_coerce (bytes : List UInt8) : bytes.length ≤ (coerce bytes).length :=
  (length_coerceFrom 0 bytes).1

theorem coerce_of_valid (valid : Valid bytes) : coerce bytes = bytes :=
  coerceFrom_of_valid valid

theorem valid_of_length_coerce (same : (coerce bytes).length = bytes.length) : Valid bytes := by
  cases valid : validFrom 0 bytes with
  | true => exact valid
  | false =>
    have longer := (length_coerceFrom 0 bytes).2 valid
    rw [coerce] at same
    omega

example : coerce [0x61, 0xFF, 0xC3, 0xA9] = [0x61, 0xEF, 0xBF, 0xBD, 0xC3, 0xA9] := by decide

end Utf8
