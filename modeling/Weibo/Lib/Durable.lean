import Mathlib.Data.List.Basic

/-!
# Programs of durable steps

A program is a list of steps, each of them durable once it is done. A crash leaves the state
that some first part of the program has reached, so what a crash can show is what holds
throughout the program.
-/

namespace Weibo.Durable

open List

variable {σ α β : Type} (apply : σ → α → σ)

def run (s : σ) (program : List α) : σ := program.foldl apply s

def Throughout (holds : σ → Prop) : σ → List α → Prop
  | s, [] => holds s
  | s, step :: rest => holds s ∧ Throughout holds (apply s step) rest

variable {apply} {holds : σ → Prop} {s : σ} {program rest : List α}

@[simp] theorem run_nil : run apply s [] = s := rfl

@[simp] theorem run_cons (step : α) : run apply s (step :: rest) = run apply (apply s step) rest :=
  rfl

theorem run_append : run apply s (program ++ rest) = run apply (run apply s program) rest :=
  foldl_append

theorem Throughout.ends (always : Throughout apply holds s program) :
    holds (run apply s program) := by
  induction program generalizing s with
  | nil => exact always
  | cons step rest ih => exact ih always.2

theorem Throughout.crash (always : Throughout apply holds s program) (n : Nat) :
    holds (run apply s (program.take n)) := by
  induction program generalizing s n with
  | nil =>
    rw [take_nil]
    exact always
  | cons step rest ih =>
    cases n with
    | zero => exact always.1
    | succ n => exact ih always.2 n

theorem Throughout.mono {weaker : σ → Prop} (always : Throughout apply holds s program)
    (weaken : ∀ t, holds t → weaker t) : Throughout apply weaker s program := by
  induction program generalizing s with
  | nil => exact weaken s always
  | cons step rest ih => exact ⟨weaken s always.1, ih always.2⟩

theorem Throughout.append (first : Throughout apply holds s program)
    (second : Throughout apply holds (run apply s program) rest) :
    Throughout apply holds s (program ++ rest) := by
  induction program generalizing s with
  | nil => exact second
  | cons step program ih => exact ⟨first.1, ih first.2 second⟩

theorem throughout_of_steps (initial : holds s) (preserved : ∀ t, ∀ step ∈ program, holds t →
    holds (apply t step)) : Throughout apply holds s program := by
  induction program generalizing s with
  | nil => exact initial
  | cons step rest ih =>
    refine ⟨initial, ih (preserved s step mem_cons_self initial) fun t other mem => ?_⟩
    exact preserved t other (mem_cons_of_mem _ mem)

theorem throughout_flatMap {items : List β} {block : β → List α} (initial : holds s)
    (preserved : ∀ t, ∀ item ∈ items, holds t → Throughout apply holds t (block item)) :
    Throughout apply holds s (items.flatMap block) := by
  induction items generalizing s with
  | nil => exact initial
  | cons item items ih =>
    have first := preserved s item mem_cons_self initial
    rw [flatMap_cons]
    exact first.append (ih first.ends fun t other mem => preserved t other (mem_cons_of_mem _ mem))

end Weibo.Durable
