import Mathlib.Data.List.Basic

/-!
# Slices

Several slices may view one array. `append` writes behind the last element of a slice while its
array has room and moves the elements to a new array when it has none. Appending to one slice leaves
the slices of other arrays alone.
-/

namespace Slices

open List

variable {α : Type}

structure Slice where
  array : Nat
  len : Nat

def Slice.cleared (s : Slice) : Slice := { s with len := 0 }

abbrev Heap (α : Type) := List (List α)

namespace Heap

def array (heap : Heap α) (k : Nat) : List α := heap[k]?.getD []

def contents (heap : Heap α) (s : Slice) : List α := (heap.array s.array).take s.len

def get [Inhabited α] (heap : Heap α) (s : Slice) (i : Nat) : α :=
  (heap.array s.array).getD i default

/-- `append(s, xs...)`; `grow` tells how much more room than needed a new array gets. -/
def append [Inhabited α] (grow : Nat → Nat) (heap : Heap α) (s : Slice) (xs : List α) :
    Heap α × Slice :=
  let array := heap.array s.array
  let len := s.len + xs.length
  if len ≤ array.length then
    (heap.set s.array (array.take s.len ++ xs ++ array.drop len), { s with len })
  else
    (heap ++ [array.take s.len ++ xs ++ replicate (grow len) default], ⟨heap.length, len⟩)

end Heap

structure Slice.Within (s : Slice) (heap : Heap α) : Prop where
  exists_array : s.array < heap.length
  room : s.len ≤ (heap.array s.array).length

variable {s : Slice} {heap : Heap α}

theorem Slice.Within.cleared (within : s.Within heap) : s.cleared.Within heap :=
  ⟨within.exists_array, Nat.zero_le _⟩

structure Kept (t : Slice) (before after : Heap α) (changed : Slice) : Prop where
  within : t.Within after
  contents : after.contents t = before.contents t
  apart : t.array ≠ changed.array

/-! ## Appending -/

variable {k : Nat}

theorem Heap.array_set_self (inside : k < heap.length) (xs : List α) :
    Heap.array (heap.set k xs) k = xs := by
  simp [Heap.array, inside]

theorem Heap.array_set_ne {j : Nat} (other : j ≠ k) (xs : List α) :
    Heap.array (heap.set k xs) j = heap.array j := by
  simp [Heap.array, List.getElem?_set_ne (Ne.symm other)]

theorem Heap.array_new (heap : Heap α) (xs : List α) :
    Heap.array (heap ++ [xs]) heap.length = xs := by
  simp [Heap.array]

theorem Heap.array_old (inside : k < heap.length) (xs : List α) :
    Heap.array (heap ++ [xs]) k = heap.array k := by
  simp [Heap.array, List.getElem?_append_left inside]

variable [Inhabited α]

theorem Heap.get_eq {i : Nat} {x : α}
    (found : (heap.contents s)[i]? = some x) : heap.get s i = x := by
  rw [Heap.contents, List.getElem?_take] at found
  split at found
  · simp [Heap.get, found]
  · cases found

theorem append_spec (grow : Nat → Nat) (within : s.Within heap) (xs : List α) :
    (heap.append grow s xs).2.Within (heap.append grow s xs).1 ∧
      (heap.append grow s xs).1.contents (heap.append grow s xs).2 = heap.contents s ++ xs ∧
      ∀ t : Slice, t.Within heap → t.array ≠ s.array →
        Kept t heap (heap.append grow s xs).1 (heap.append grow s xs).2 := by
  have taken : ((heap.array s.array).take s.len).length = s.len :=
    length_take_of_le within.room
  simp only [Heap.append]
  split
  · -- The array has room: only the elements behind the slice are overwritten.
    rename_i fits
    refine ⟨⟨by simpa using within.exists_array, ?_⟩, ?_, fun t held other => ⟨⟨?_, ?_⟩, ?_, other⟩⟩
    · simp only [Heap.array_set_self within.exists_array, length_append, taken,
        length_drop]
      omega
    · simp only [Heap.contents, Heap.array_set_self within.exists_array]
      exact take_left' (by simp [taken])
    · simpa using held.exists_array
    · simpa only [Heap.array_set_ne other] using held.room
    · simp only [Heap.contents, Heap.array_set_ne other]
  · -- The elements move to a new array.
    refine ⟨⟨by simp, ?_⟩, ?_, fun t held other => ⟨⟨?_, ?_⟩, ?_, ?_⟩⟩
    · simp only [Heap.array_new, length_append, taken]
      omega
    · simp only [Heap.contents, Heap.array_new]
      exact take_left' (by simp [taken])
    · have inside := held.exists_array
      simp only [length_append, length_singleton]
      omega
    · simpa only [Heap.array_old held.exists_array] using held.room
    · simp only [Heap.contents, Heap.array_old held.exists_array]
    · exact Nat.ne_of_lt held.exists_array

end Slices
