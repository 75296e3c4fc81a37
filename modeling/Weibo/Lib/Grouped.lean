import Mathlib.Data.List.Basic

/-!
# Streams that come in groups

A stream is grouped by a key when all elements with one key stand next to each other. A step that
replaces every element by some of the same key keeps the groups.
-/

variable {α κ : Type} {key : α → κ}

def Grouped (key : α → κ) (stream : List α) : Prop :=
  ∃ groups : List (κ × List α), (groups.map Prod.fst).Nodup ∧ stream = groups.flatMap Prod.snd ∧
    ∀ g ∈ groups, ∀ a ∈ g.2, key a = g.1

namespace Grouped

open List

theorem between {stream before after : List α} {x y z : α} (grouped : Grouped key stream)
    (split : stream = before ++ x :: after) (early : y ∈ before) (late : z ∈ after)
    (same : key y = key z) : key x = key y := by
  obtain ⟨groups, distinct, rfl, members⟩ := grouped
  induction groups generalizing before with
  | nil => simp at split
  | cons g groups ih =>
    have own : ∀ a ∈ g.2, key a = g.1 := members g mem_cons_self
    rw [flatMap_cons] at split
    obtain ⟨absent, distinct⟩ := nodup_cons.1 distinct
    have others : ∀ a ∈ groups.flatMap Prod.snd, key a ≠ g.1 := by
      intro a mem clash
      obtain ⟨other, listed, inside⟩ := mem_flatMap.1 mem
      have named := members other (.tail _ listed) a inside
      exact absent (mem_map.2 ⟨other, listed, named.symm.trans clash⟩)
    rcases append_eq_append_iff.1 split with ⟨middle, rfl, rest⟩ | ⟨middle, first, rest⟩
    · have further : z ∈ groups.flatMap Prod.snd := by
        rw [rest]
        exact mem_append_right _ (.tail _ late)
      rcases mem_append.1 early with here | there
      · exact absurd (same.symm.trans (own y here)) (others z further)
      · exact ih there distinct (fun g mem => members g (.tail _ mem)) rest
    · have inside : y ∈ g.2 := by
        rw [first]
        exact mem_append_left _ early
      cases middle with
      | nil =>
        -- the group ends in front of `x`, so `z` belongs to another one
        have further : z ∈ groups.flatMap Prod.snd := by
          rw [nil_append] at rest
          exact rest ▸ mem_cons_of_mem _ late
        exact absurd (same.symm.trans (own y inside)) (others z further)
      | cons head middle =>
        obtain ⟨rfl, -⟩ := cons.inj rest
        have mine : x ∈ g.2 := by
          rw [first]
          exact mem_append_right _ mem_cons_self
        rw [own x mine, own y inside]

end Grouped
