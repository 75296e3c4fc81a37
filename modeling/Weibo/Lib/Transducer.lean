import Mathlib.Data.List.Basic

/-!
# Transducers and marked streams

A transducer turns each element of a stream into a list of elements and updates its state. `mark a =
some m` says that `a` carries the mark `m`. A transducer that forwards marks keeps the parts ahead
of them apart.
-/

namespace Transducer

open List

variable {σ α β : Type} (step : σ → α → σ × List β)

def final (s : σ) : List α → σ
  | [] => s
  | a :: rest => final (step s a).1 rest

def outputs (s : σ) : List α → List β
  | [] => []
  | a :: rest => (step s a).2 ++ outputs (step s a).1 rest

@[simp]
theorem final_append (s : σ) (first second : List α) :
    final step s (first ++ second) = final step (final step s first) second := by
  induction first generalizing s with
  | nil => rfl
  | cons a rest ih => exact ih (step s a).1

@[simp]
theorem outputs_append (s : σ) (first second : List α) : outputs step s (first ++ second) =
      outputs step s first ++ outputs step (final step s first) second := by
  induction first generalizing s with
  | nil => rfl
  | cons a rest ih =>
    simp only [cons_append, outputs, final, ih, append_assoc]

@[simp]
theorem final_nil (s : σ) : final step s [] = s := rfl

@[simp]
theorem outputs_nil (s : σ) : outputs step s [] = [] := rfl

@[simp]
theorem final_singleton (s : σ) (a : α) : final step s [a] = (step s a).1 := rfl

@[simp]
theorem outputs_singleton (s : σ) (a : α) : outputs step s [a] = (step s a).2 := by
  simp [outputs]

end Transducer

namespace Marked

variable {α ι : Type} [DecidableEq ι] (mark : α → Option ι)

def marks (stream : List α) : List ι := stream.filterMap mark

def ahead (m : ι) (stream : List α) : List α := stream.takeWhile fun a => mark a ≠ some m

variable {mark} {m : ι} {first second : List α}

omit [DecidableEq ι] in
@[simp]
theorem marks_nil : marks mark [] = [] := rfl

omit [DecidableEq ι] in
@[simp]
theorem marks_append : marks mark (first ++ second) = marks mark first ++ marks mark second :=
  List.filterMap_append

variable {a : α}

omit [DecidableEq ι] in
theorem marks_singleton (marked : mark a = some m) : marks mark [a] = [m] := by
  simp [marks, marked]

omit [DecidableEq ι] in
theorem marks_singleton_none (unmarked : mark a = none) : marks mark [a] = [] := by
  simp [marks, unmarked]

omit [DecidableEq ι] in
theorem mem_marks : m ∈ marks mark first ↔ ∃ a ∈ first, mark a = some m := by
  simp [marks]

theorem ahead_cons (m : ι) (a : α) (rest : List α) :
    ahead mark m (a :: rest) = if mark a = some m then [] else a :: ahead mark m rest := by
  by_cases marked : mark a = some m <;> simp [ahead, marked]

theorem ahead_append_of_mem (present : m ∈ marks mark first) :
    ahead mark m (first ++ second) = ahead mark m first := by
  induction first with
  | nil => simp at present
  | cons a rest ih =>
    by_cases marked : mark a = some m
    · rw [List.cons_append, ahead_cons, ahead_cons, if_pos marked, if_pos marked]
    · have later : m ∈ marks mark rest := by
        obtain ⟨b, inside, same⟩ := mem_marks.1 present
        rcases List.mem_cons.1 inside with rfl | tail
        · exact absurd same marked
        · exact mem_marks.2 ⟨b, tail, same⟩
      rw [List.cons_append, ahead_cons, ahead_cons, if_neg marked, if_neg marked, ih later]

theorem ahead_append_of_not_mem (absent : m ∉ marks mark first) :
    ahead mark m (first ++ second) = first ++ ahead mark m second := by
  refine List.takeWhile_append_of_pos fun a inside => ?_
  have unmarked : mark a ≠ some m := fun marked => absent (mem_marks.2 ⟨a, inside, marked⟩)
  simpa using unmarked

theorem ahead_append_marked (absent : m ∉ marks mark first) (marked : mark a = some m) :
    ahead mark m (first ++ [a]) = first := by
  rw [ahead_append_of_not_mem absent]
  simp [ahead, marked]

def behind (mark : α → Option ι) (stream : List α) : List α :=
  stream.foldl (fun tail a => if (mark a).isSome then [] else tail ++ [a]) []

omit [DecidableEq ι] in
@[simp]
theorem behind_nil : behind mark [] = [] := rfl

omit [DecidableEq ι] in
theorem behind_append_marked (marked : mark a = some m) : behind mark (first ++ [a]) = [] := by
  simp [behind, marked]

omit [DecidableEq ι] in
theorem behind_append_unmarked (unmarked : mark a = none) :
    behind mark (first ++ [a]) = behind mark first ++ [a] := by
  simp [behind, unmarked]

section Forwarding

variable {σ : Type} {step : σ → α → σ × List α}

/-- A transducer forwards marks: a marked element yields one element with the same mark and
others yield none. -/
def Forwards (mark : α → Option ι) (step : σ → α → σ × List α) : Prop :=
  ∀ s a, match mark a with
    | none => ∀ b ∈ (step s a).2, mark b = none
    | some m => ∃ b, (step s a).2 = [b] ∧ mark b = some m

omit [DecidableEq ι] in
theorem Forwards.marks_outputs (forwards : Forwards mark step) (s : σ) (stream : List α) :
    marks mark (Transducer.outputs step s stream) = marks mark stream := by
  induction stream generalizing s with
  | nil => rfl
  | cons a rest ih =>
    have own := forwards s a
    rw [Transducer.outputs, marks_append, ih]
    cases marked : mark a with rw [marked] at own
    | none =>
      have nothing : marks mark (step s a).2 = [] := List.filterMap_eq_nil_iff.2 own
      rw [nothing, List.nil_append]
      simp [marks, marked]
    | some m =>
      obtain ⟨b, single, same⟩ := own
      rw [single, marks_singleton same]
      simp [marks, marked]

theorem Forwards.ahead_outputs (forwards : Forwards mark step) (s : σ) (stream : List α)
    (m : ι) : ahead mark m (Transducer.outputs step s stream) = Transducer.outputs step s
    (ahead mark m stream) := by
  induction stream generalizing s with
  | nil => rfl
  | cons a rest ih =>
    have own := forwards s a
    rw [Transducer.outputs, ahead_cons]
    by_cases marked : mark a = some m
    · rw [marked] at own
      obtain ⟨b, single, same⟩ := own
      simp [single, ahead, same, marked]
    · rw [if_neg marked, ahead_append_of_not_mem, ih]
      · rfl
      · cases unmarked : mark a with rw [unmarked] at own
        | none =>
          intro present
          obtain ⟨b, inside, same⟩ := mem_marks.1 present
          cases (own b inside).symm.trans same
        | some k =>
          obtain ⟨b, single, same⟩ := own
          rw [single, marks_singleton same, List.mem_singleton]
          rintro rfl
          exact marked unmarked

end Forwarding

end Marked
