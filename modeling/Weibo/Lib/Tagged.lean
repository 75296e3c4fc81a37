import Mathlib.Algebra.GroupWithZero.Nat
import Mathlib.Data.List.Forall2
import Mathlib.Data.List.Nodup

/-!
# Interleavings with markers

A sequence of tagged items `(w, x)` interleaves the items of several origins `w`; those that satisfy
`marker` belong to every origin. `own` selects the items of one origin and `view` what that origin
sees, its own items and every marker.
-/

namespace Tagged

open List

variable {ι α : Type} [DecidableEq ι] (marker : α → Bool)

/-- The items of origin `w`, in order. -/
def own (w : ι) (xs : List (ι × α)) : List α :=
  (xs.filter fun x => decide (x.1 = w)).map Prod.snd

/-- The items origin `w` takes part in: its own and every marker. -/
def view (w : ι) (xs : List (ι × α)) : List α :=
  (xs.filter fun x => marker x.2 || decide (x.1 = w)).map Prod.snd

@[simp] theorem own_nil (w : ι) : own w ([] : List (ι × α)) = [] := rfl

@[simp] theorem view_nil (w : ι) : view marker w ([] : List (ι × α)) = [] := rfl

@[simp] theorem own_cons (w v : ι) (x : α) (xs : List (ι × α)) :
    own w ((v, x) :: xs) = if v = w then x :: own w xs else own w xs := by
  by_cases same : v = w <;> simp [own, same]

@[simp] theorem view_cons (w v : ι) (x : α) (xs : List (ι × α)) : view marker w ((v, x) :: xs) =
      if marker x ∨ v = w then x :: view marker w xs else view marker w xs := by
  by_cases shared : marker x = true <;> by_cases same : v = w <;> simp [view, shared, same]

@[simp] theorem own_append (w : ι) (xs ys : List (ι × α)) :
    own w (xs ++ ys) = own w xs ++ own w ys := by
  simp [own]

@[simp] theorem view_append (w : ι) (xs ys : List (ι × α)) :
    view marker w (xs ++ ys) = view marker w xs ++ view marker w ys := by
  simp [view]

theorem filter_view (w : ι) (xs : List (ι × α)) :
    (view marker w xs).filter marker = (xs.map Prod.snd).filter marker := by
  induction xs with
  | nil => rfl
  | cons x xs ih =>
    obtain ⟨v, x⟩ := x
    by_cases shared : marker x = true <;> by_cases same : v = w <;> simp [shared, same, ih]

theorem filter_snd_eq {select : α → Bool} {w : ι} {xs : List (ι × α)}
    (only : ∀ x ∈ xs, select x.2 = true → marker x.2 = true ∨ x.1 = w) :
    (xs.map Prod.snd).filter select = (view marker w xs).filter select := by
  induction xs with
  | nil => rfl
  | cons x xs ih =>
    obtain ⟨v, x⟩ := x
    have rest := ih fun y mem => only y (.tail _ mem)
    rw [map_cons, view_cons]
    by_cases seen : marker x = true ∨ v = w
    · simp [seen, filter_cons, rest]
    · have unselected : select x = false := by
        cases kind : select x with
        | false => rfl
        | true => exact absurd (only (v, x) mem_cons_self kind) seen
      simp [seen, unselected, rest]

theorem splitOnP_view (w : ι) (xs : List (ι × α)) : (view marker w xs).splitOnP marker =
      (xs.splitOnP fun x => marker x.2).map (own w) := by
  induction xs with
  | nil => simp
  | cons x xs ih =>
    obtain ⟨v, x⟩ := x
    obtain ⟨seg, segs, split⟩ := exists_cons_of_ne_nil
      (splitOnP_ne_nil (fun x : ι × α => marker x.2) xs)
    rw [split, map_cons] at ih
    by_cases shared : marker x = true
    · simp [splitOnP_cons_eq_if_modifyHead, shared, ih, split]
    · by_cases same : v = w <;>
        simp [splitOnP_cons_eq_if_modifyHead, shared, same, ih, split]

theorem perm_flatMap_own {n : Nat} (xs : List (Fin n × α)) :
    (xs.map Prod.snd).Perm ((finRange n).flatMap fun w => own w xs) := by
  induction xs with
  | nil => simp
  | cons x xs ih =>
    obtain ⟨v, x⟩ := x
    obtain ⟨before, after, split⟩ := append_of_mem (mem_finRange v)
    have distinct := nodup_finRange n
    rw [split] at ih distinct ⊢
    have absent : ∀ w ∈ before ++ after, ¬v = w := by
      intro w mem same
      subst same
      exact (nodup_middle.1 distinct).notMem mem
    have frame : ∀ ws : List (Fin n), (∀ w ∈ ws, ¬v = w) →
        (ws.flatMap fun w => own w ((v, x) :: xs)) = ws.flatMap fun w => own w xs := by
      intro ws other
      refine flatMap_congr fun w mem => ?_
      simp [other w mem]
    rw [flatMap_append, flatMap_cons,
      frame before fun w mem => absent w (mem_append_left _ mem),
      frame after fun w mem => absent w (mem_append_right _ mem)]
    simp only [map_cons, own_cons, if_true, cons_append]
    refine (Perm.cons x ?_).trans perm_middle.symm
    simpa using ih

omit [DecidableEq ι] in
theorem splitOnP_map_snd (xs : List (ι × α)) : (xs.map Prod.snd).splitOnP marker =
      (xs.splitOnP fun x => marker x.2).map (List.map Prod.snd) := by
  induction xs with
  | nil => simp
  | cons x xs ih =>
    obtain ⟨seg, segs, split⟩ := exists_cons_of_ne_nil
      (splitOnP_ne_nil (fun x : ι × α => marker x.2) xs)
    rw [split, map_cons] at ih
    by_cases shared : marker x.2 = true <;> simp [splitOnP_cons_eq_if_modifyHead, shared, ih, split]

theorem forall₂_perm_of_views {n : Nat} [NeZero n] {xs ys : List (Fin n × α)}
    (same : ∀ w, view marker w xs = view marker w ys) :
    Forall₂ Perm ((xs.map Prod.snd).splitOnP marker) ((ys.map Prod.snd).splitOnP marker) := by
  have parts : ∀ w, (xs.splitOnP fun x => marker x.2).map (own w) =
      (ys.splitOnP fun x => marker x.2).map (own w) := by
    intro w
    rw [← splitOnP_view, ← splitOnP_view, same w]
  rw [splitOnP_map_snd, splitOnP_map_snd, forall₂_map_left_iff, forall₂_map_right_iff]
  have lengths := congrArg length (parts 0)
  simp only [length_map] at lengths
  refine forall₂_iff_get.2 ⟨lengths, fun i inside inside' => ?_⟩
  have owned : ∀ w, own w ((xs.splitOnP fun x => marker x.2).get ⟨i, inside⟩) =
      own w ((ys.splitOnP fun x => marker x.2).get ⟨i, inside'⟩) := by
    intro w
    have here := congrArg (fun segs => segs[i]?) (parts w)
    simpa [List.getElem?_map, inside, inside'] using here
  refine (perm_flatMap_own _).trans (Perm.trans ?_ (perm_flatMap_own _).symm)
  simp only [owned]
  exact .refl _

end Tagged
