import Mathlib.Data.List.Lex
import Mathlib.Order.Lattice

/-!
# Lists that differ first at a smaller element

`Below x y` says that neither list begins with the other and that `x` has the smaller element where
they first differ. Unlike the dictionary order, it is kept whatever follows the lists.
-/

namespace FirstDifference

open List

variable {α : Type} [LinearOrder α] {x y front : List α}

def Below (x y : List α) : Prop :=
  ∃ front a b rest others, x = front ++ a :: rest ∧ y = front ++ b :: others ∧ a < b

theorem Below.append (below : Below x y) (u v : List α) : Below (x ++ u) (y ++ v) := by
  obtain ⟨front, a, b, rest, others, rfl, rfl, less⟩ := below
  exact ⟨front, a, b, rest ++ u, others ++ v, by simp, by simp, less⟩

theorem Below.behind (below : Below x y) (front : List α) : Below (front ++ x) (front ++ y) := by
  obtain ⟨first, a, b, rest, others, rfl, rfl, less⟩ := below
  exact ⟨front ++ first, a, b, rest, others, by simp, by simp, less⟩

theorem below_cons {a b : α} (less : a < b) (rest others : List α) :
    Below (a :: rest) (b :: others) :=
  ⟨[], a, b, rest, others, rfl, rfl, less⟩

theorem Below.lt (below : Below x y) : x < y := by
  obtain ⟨front, a, b, rest, others, rfl, rfl, less⟩ := below
  induction front with
  | nil => exact cons_lt_cons_iff.2 (.inl less)
  | cons c front ih => exact cons_lt_cons_iff.2 (.inr ⟨rfl, ih⟩)

theorem below_of_lt (less : x < y) (long : x.length = y.length) : Below x y := by
  induction x generalizing y with
  | nil =>
    rw [eq_nil_of_length_eq_zero long.symm] at less
    exact absurd less (not_lt_nil _)
  | cons a rest ih =>
    cases y with
    | nil => cases long
    | cons b others =>
      rcases cons_lt_cons_iff.1 less with smaller | ⟨rfl, smaller⟩
      · exact below_cons smaller rest others
      · exact (ih smaller (by simpa using long)).behind [a]

theorem Below.not_initial (below : Below x y) : ¬ x <+: y := by
  obtain ⟨front, a, b, rest, others, rfl, rfl, less⟩ := below
  rw [prefix_append_right_inj, cons_prefix_cons]
  exact fun same => absurd same.1 (ne_of_lt less)

end FirstDifference
