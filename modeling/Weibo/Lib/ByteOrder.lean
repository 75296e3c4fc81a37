import Mathlib.Algebra.Group.Nat.Defs
import Mathlib.Data.List.Lex
import Weibo.Lib.OrderedMap

/-!
# Byte strings in dictionary order

The keys of a byte-ordered store. The strings that begin with a given one are a half-open range,
and integers written with a fixed number of bytes, the highest first, are ordered as numbers.
-/

namespace Weibo

open List Nat

instance linearOrderUInt8 : LinearOrder UInt8 where
  le_refl := UInt8.le_refl
  le_trans _ _ _ := UInt8.le_trans
  le_antisymm _ _ := UInt8.le_antisymm
  le_total := UInt8.le_total
  lt_iff_le_not_ge first second := by
    rw [UInt8.not_le]
    exact ⟨fun less => ⟨UInt8.le_of_lt less, less⟩, And.right⟩
  toDecidableLE := inferInstance

namespace ByteOrder

theorem cons_lt_cons {first second : UInt8} {rest others : List UInt8} :
    first :: rest < second :: others ↔ first < second ∨ first = second ∧ rest < others :=
  cons_lt_cons_iff

theorem inRange_iff {last : UInt8} (below : last < 0xff) (front key : List UInt8) :
    OrderedMap.InRange (front ++ [last]) (front ++ [last + 1]) key ↔ front ++ [last] <+: key := by
  have next : ∀ byte : UInt8, byte < last + 1 ↔ byte < last ∨ byte = last := by
    intro byte
    have sum : (last + 1).toNat = last.toNat + 1 := by
      rw [UInt8.toNat_add]
      have bound := UInt8.lt_iff_toNat_lt.1 below
      exact mod_eq_of_lt (by simpa using lt_of_lt_of_le (succ_lt_succ bound) (by decide))
    rw [UInt8.lt_iff_toNat_lt, UInt8.lt_iff_toNat_lt, ← UInt8.toNat_inj, sum]
    omega
  induction front generalizing key with
  | nil =>
    cases key with
    | nil => simp [OrderedMap.InRange]
    | cons byte rest =>
      have small : ¬rest < [] := not_lt_nil rest
      simp only [OrderedMap.InRange, nil_append, cons_lt_cons, small, and_false, or_false,
        cons_prefix_cons, List.nil_prefix, and_true, next]
      constructor
      · rintro ⟨high, low | same⟩
        · exact absurd low high
        · exact same.symm
      · intro same
        subst same
        exact ⟨lt_irrefl _, .inr rfl⟩
  | cons byte front ih =>
    cases key with
    | nil => simp [OrderedMap.InRange]
    | cons other rest =>
      simp only [cons_append, cons_prefix_cons, ← ih, OrderedMap.InRange, cons_lt_cons]
      constructor
      · rintro ⟨high, low | ⟨same, low⟩⟩
        · exact absurd (.inl low) high
        · exact ⟨same.symm, fun less => high (.inr ⟨same, less⟩), low⟩
      · rintro ⟨same, high, low⟩
        subst same
        refine ⟨?_, .inr ⟨rfl, low⟩⟩
        rintro (less | ⟨_, less⟩)
        · exact lt_irrefl _ less
        · exact high less

def bigEndian : Nat → Nat → List UInt8
  | 0, _ => []
  | width + 1, number =>
    UInt8.ofNat (number / 256 ^ width) :: bigEndian width (number % 256 ^ width)

def ofBigEndian (bytes : List UInt8) : Nat :=
  bytes.foldl (fun number byte => number * 256 + byte.toNat) 0

@[simp]
theorem length_bigEndian (width number : Nat) : (bigEndian width number).length = width := by
  induction width generalizing number with
  | zero => rfl
  | succ width ih => rw [bigEndian, length_cons, ih]

theorem toNat_highest {width number : Nat} (fits : number < 256 ^ (width + 1)) :
    (UInt8.ofNat (number / 256 ^ width)).toNat = number / 256 ^ width := by
  apply UInt8.toNat_ofNat_of_lt
  apply (Nat.div_lt_iff_lt_mul (Nat.pow_pos (by decide))).2
  calc number < 256 ^ (width + 1) := fits
    _ = 256 * 256 ^ width := pow_succ'

theorem ofBigEndian_bigEndian {width number : Nat} (fits : number < 256 ^ width) :
    ofBigEndian (bigEndian width number) = number := by
  have reads : ∀ (width number start : Nat), number < 256 ^ width →
      (bigEndian width number).foldl (fun number byte => number * 256 + byte.toNat) start =
        start * 256 ^ width + number := by
    intro width
    induction width with intro number start fits
    | zero =>
      have zero : number = 0 := lt_one_iff.1 fits
      simp [bigEndian, zero]
    | succ width ih =>
      rw [bigEndian, foldl_cons, ih _ _ (Nat.mod_lt _ (Nat.pow_pos (by decide))),
        toNat_highest fits]
      have split := div_add_mod number (256 ^ width)
      rw [Nat.pow_succ, Nat.add_mul, Nat.add_assoc, Nat.mul_comm (number / 256 ^ width), split,
        mul_assoc, mul_comm 256]
  rw [ofBigEndian, reads width number 0 fits, Nat.zero_mul, Nat.zero_add]

theorem bigEndian_lt {width smaller larger : Nat} (fits : larger < 256 ^ width)
    (less : smaller < larger) : bigEndian width smaller < bigEndian width larger := by
  induction width generalizing smaller larger with
  | zero => exact absurd (lt_one_iff.1 fits) (ne_of_gt (zero_lt_of_lt less))
  | succ width ih =>
    have positive : 0 < 256 ^ width := Nat.pow_pos (by decide)
    have high := Nat.div_le_div_right (c := 256 ^ width) less.le
    rw [bigEndian, bigEndian, cons_lt_cons, UInt8.lt_iff_toNat_lt, ← UInt8.toNat_inj,
      toNat_highest fits, toNat_highest (less.trans fits)]
    rcases lt_or_eq_of_le high with lower | same
    · exact .inl lower
    · have split := div_add_mod smaller (256 ^ width)
      have others := div_add_mod larger (256 ^ width)
      rw [same] at split
      exact .inr ⟨same, ih (mod_lt _ positive) (by omega)⟩

end ByteOrder

end Weibo
