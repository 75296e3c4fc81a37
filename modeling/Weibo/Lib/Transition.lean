import Mathlib.Algebra.BigOperators.Group.Finset.Basic
import Mathlib.Algebra.Order.BigOperators.Group.Finset
import Mathlib.Data.DFinsupp.WellFounded

/-!
# Action-labelled transition systems

A system is a partial step function: an action that is not enabled in a state yields `none`. Every
nondeterministic choice is part of the action, so a run is a list of actions and every step stays
executable.
-/

namespace Transition

open Option

variable {σ α : Type}

def Always : σ → α → Prop := fun _ _ => True

/-- Execute a list of actions in order; `none` when one of them is not enabled. -/
def run (step : σ → α → Option σ) : σ → List α → Option σ
  | s, [] => some s
  | s, a :: rest => (step s a).bind fun t => run step t rest

/-- The states reached from `start` by steps that all meet `ok`. -/
inductive Reach (step : σ → α → Option σ) (ok : σ → α → Prop) (start : σ) : σ → Prop
  | refl : Reach step ok start start
  | tail {s t : σ} (a : α) :
      Reach step ok start s → ok s a → step s a = some t → Reach step ok start t

/-- No action is possible. -/
def Stuck (step : σ → α → Option σ) (s : σ) : Prop := ∀ a, step s a = none

theorem of_ite_some {c : Prop} [Decidable c] {a b : σ}
    (moves : (if c then some a else none) = some b) : c ∧ a = b :=
  (ite_none_right_eq_some.1 moves).imp_right some.inj

theorem of_ite_none {c : Prop} [Decidable c] {a b : σ}
    (moves : (if c then none else some a) = some b) : ¬c ∧ a = b :=
  (ite_none_left_eq_some.1 moves).imp_right some.inj

variable {step : σ → α → Option σ} {ok : σ → α → Prop} {start s t : σ}

theorem Reach.invariant {inv : σ → Prop} (reach : Reach step ok start s) (initial : inv start)
    (preserved : ∀ s a t, inv s → ok s a → step s a = some t → inv t) : inv s := by
  induction reach with
  | refl => exact initial
  | tail a _ meets moves ih => exact preserved _ a _ ih meets moves

theorem Reach.trans (first : Reach step ok start s)
    (second : Reach step ok s t) : Reach step ok start t := by
  induction second with
  | refl => exact first
  | tail a _ meets moves ih => exact .tail a ih meets moves

def Image {τ : Type} (f : σ → τ) (step : σ → α → Option σ) (image : τ → α → Option τ) : Prop :=
  ∀ s a, (step s a).map f = image (f s) a

section Image

variable {τ : Type} {f : σ → τ} {image : τ → α → Option τ}

theorem Image.reach (corresponds : Image f step image) (reach : Reach step Always start s) :
    Reach image Always (f start) (f s) := by
  induction reach with
  | refl => exact .refl
  | tail a _ _ moves ih => exact .tail a ih trivial (by rw [← corresponds, moves]; rfl)

theorem Image.exists_reach (corresponds : Image f step image) {t : τ}
    (reach : Reach image Always (f start) t) : ∃ s, Reach step Always start s ∧ f s = t := by
  induction reach with
  | refl => exact ⟨start, .refl, rfl⟩
  | tail a _ _ moves ih =>
    obtain ⟨s, reach, rfl⟩ := ih
    rw [← corresponds] at moves
    obtain ⟨next, moved, rfl⟩ := map_eq_some_iff.1 moves
    exact ⟨next, .tail a reach trivial moved, rfl⟩

theorem Image.stuck_iff (corresponds : Image f step image) : Stuck image (f s) ↔ Stuck step s := by
  refine forall_congr' fun a => ?_
  rw [← corresponds, map_eq_none_iff]

end Image

def guarded (step : σ → α → Option σ) (ok : σ → α → Prop) [∀ s a, Decidable (ok s a)]
    (s : σ) (a : α) : Option σ :=
  if ok s a then step s a else none

theorem Reach.of_guarded [∀ s a, Decidable (ok s a)] (actions : List α)
    (executed : run (guarded step ok) start actions = some t) : Reach step ok start t := by
  induction actions generalizing start with
  | nil =>
    simp only [run, some.injEq] at executed
    exact executed ▸ .refl
  | cons a rest ih =>
    simp only [run, bind_eq_some_iff] at executed
    obtain ⟨next, moves, executed⟩ := executed
    simp only [guarded] at moves
    split at moves
    next meets =>
      exact Reach.trans (.tail a .refl meets moves) (ih executed)
    · cases moves

theorem Reach.of_run (actions : List α) (executed : run step start actions = some t) :
    Reach step Always start t := by
  induction actions generalizing start with
  | nil =>
    simp only [run, some.injEq] at executed
    exact executed ▸ .refl
  | cons a rest ih =>
    simp only [run, bind_eq_some_iff] at executed
    obtain ⟨next, moves, executed⟩ := executed
    exact Reach.trans (.tail a .refl trivial moves) (ih executed)

theorem Reach.exists_of_run (step : σ → α → Option σ) (start : σ) (actions : List α)
    (holds : σ → Bool) (executed : (run step start actions).any holds = true) : ∃ s,
    Reach step Always start s ∧ holds s = true := by
  obtain ⟨s, ended, held⟩ := (any_eq_true _ _).1 executed
  exact ⟨s, Reach.of_run actions ended, held⟩

theorem Reach.exists_of_guarded (step : σ → α → Option σ) (ok : σ → α → Prop)
    [∀ s a, Decidable (ok s a)] (start : σ) (actions : List α) (holds : σ → Bool)
    (executed : (run (guarded step ok) start actions).any holds = true) :
    ∃ s, Reach step ok start s ∧ holds s = true := by
  obtain ⟨s, ended, held⟩ := (any_eq_true _ _).1 executed
  exact ⟨s, Reach.of_guarded actions ended, held⟩

theorem run_length_le {measure : σ → Nat} (inv : σ → Prop) (preserved : ∀ s a t, inv s →
    step s a = some t → inv t) (lowers : ∀ s a t, inv s → step s a = some t → measure t < measure s)
    {actions : List α} (initial : inv start)
    (executed : run step start actions = some t) : actions.length + measure t ≤ measure start := by
  induction actions generalizing start with
  | nil =>
    simp only [run, some.injEq] at executed
    simp [executed]
  | cons a rest ih =>
    simp only [run, bind_eq_some_iff] at executed
    obtain ⟨next, moves, executed⟩ := executed
    have lower := lowers start a next initial moves
    have shorter := ih (preserved start a next initial moves) executed
    simp only [List.length_cons]
    omega

/-- The lexicographic order of sequences that differ among their first `length` components. -/
def Below (length : Nat) (lower upper : Nat → Nat) : Prop :=
  ∃ k < length, (∀ j < k, lower j = upper j) ∧ lower k < upper k

theorem below_wellFounded (length : Nat) : WellFounded (Below length) := by
  have order : WellFounded
      (Pi.Lex (· < ·) (· < ·) : (Fin length → Nat) → (Fin length → Nat) → Prop) :=
    Pi.Lex.wellFounded (· < ·) fun _ => Nat.lt_wfRel.wf
  refine Subrelation.wf ?_ (InvImage.wf (fun f (i : Fin length) => f i) order)
  rintro lower upper ⟨k, inside, same, less⟩
  exact ⟨⟨k, inside⟩, fun j below => same j below, less⟩

/-- No schedule goes on forever from `s`. -/
def Halts (step : σ → α → Option σ) (s : σ) : Prop := Acc (fun t s => ∃ a, step s a = some t) s

theorem halts_of_lowers {μ : Type} {lower : μ → μ → Prop} (wellFounded : WellFounded lower)
    {measure : σ → μ} (inv : σ → Prop) (preserved : ∀ s a t, inv s → step s a = some t → inv t)
    (lowers : ∀ s a t, inv s → step s a = some t → lower (measure t) (measure s)) {s : σ}
    (initial : inv s) : Halts step s := by
  generalize rank : measure s = m
  induction m using wellFounded.induction generalizing s with
  | _ m ih =>
    refine ⟨s, fun t ⟨a, moves⟩ => ?_⟩
    exact ih _ (rank ▸ lowers s a t initial moves) (preserved s a t initial moves) rfl

theorem Halts.exists_stuck {s : σ}
    (halts : Halts step s) : ∃ t, Reach step Always s t ∧ Stuck step t := by
  induction halts with
  | intro s _ ih =>
    by_cases blocked : Stuck step s
    · exact ⟨s, .refl, blocked⟩
    · obtain ⟨a, enabled⟩ := not_forall.1 blocked
      obtain ⟨next, moves⟩ := ne_none_iff_exists'.1 enabled
      obtain ⟨t, reach, stuck⟩ := ih next ⟨a, moves⟩
      exact ⟨t, Reach.trans (.tail a .refl trivial moves) reach, stuck⟩

theorem Image.halts {τ : Type} {f : σ → τ} {image : τ → α → Option τ}
    (corresponds : Image f step image) {s : σ} (halts : Halts image (f s)) : Halts step s := by
  generalize start : f s = t at halts
  induction halts generalizing s with
  | intro t _ ih =>
    refine ⟨s, fun next ⟨a, moves⟩ => ih (f next) ⟨a, ?_⟩ rfl⟩
    rw [← start, ← corresponds, moves]
    rfl

/-- When a step can lower a measure as long as `goal` does not hold, a state with `goal` can be
reached. -/
theorem Reach.exists_of_descends (holds goal : σ → Prop) (measure : σ → Nat) (descends : ∀ s,
    holds s → goal s ∨ ∃ a t, ok s a ∧ step s a = some t ∧ holds t ∧ measure t < measure s) {s : σ}
    (initial : holds s) : ∃ t, Reach step ok s t ∧ holds t ∧ goal t := by
  generalize rank : measure s = m
  induction m using Nat.strong_induction_on generalizing s with
  | _ m ih =>
    rcases descends s initial with reached | ⟨a, next, meets, moves, kept, lower⟩
    · exact ⟨s, .refl, initial, reached⟩
    · obtain ⟨t, reach, held, reached⟩ := ih _ (rank ▸ lower) kept rfl
      exact ⟨t, Reach.trans (.tail a .refl meets moves) reach, held, reached⟩

theorem sum_local {ι : Type} [Fintype ι] [DecidableEq ι] (before after : ι → Nat) (moved : ι)
    (frame : ∀ i, i ≠ moved → after i = before i) :
    ∑ i, after i + before moved = ∑ i, before i + after moved := by
  have rest : ∑ i ∈ Finset.univ.erase moved, after i = ∑ i ∈ Finset.univ.erase moved, before i :=
    Finset.sum_congr rfl fun i mem => frame i (Finset.ne_of_mem_erase mem)
  rw [← Finset.sum_erase_add _ after (Finset.mem_univ moved),
    ← Finset.sum_erase_add _ before (Finset.mem_univ moved), rest]
  omega

end Transition
