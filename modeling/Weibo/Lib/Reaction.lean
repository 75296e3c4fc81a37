import Mathlib.Data.List.Basic

/-!
# Reactions

A processor reacts to an element by sending some elements and going on in a new state, or by
failing. `andThen` and `forEach` compose reactions; `Meets` states what is sent and that the
computation succeeds, and `Rel` that two computations send the same.
-/

/-- What a computation sends, and the state it ends in; `none` when it fails. -/
structure Reaction (σ α : Type) where
  sends : List α
  next : Option σ
  deriving DecidableEq

namespace Reaction

variable {σ τ α κ : Type}

def send (sends : List α) (s : σ) : Reaction σ α := ⟨sends, some s⟩

def fail : Reaction σ α := ⟨[], none⟩

def andThen (first : Reaction σ α) (second : σ → Reaction τ α) : Reaction τ α :=
  match first.next with
  | none => ⟨first.sends, none⟩
  | some s => ⟨first.sends ++ (second s).sends, (second s).next⟩

def map (f : σ → τ) (reaction : Reaction σ α) : Reaction τ α :=
  ⟨reaction.sends, reaction.next.map f⟩

def forEach (body : κ → σ → Reaction σ α) : List κ → σ → Reaction σ α
  | [], s => send [] s
  | k :: rest, s => (body k s).andThen (forEach body rest)

variable {reaction : Reaction σ α} {s : σ}

theorem eq_send (next : reaction.next = some s) : reaction = send reaction.sends s := by
  rw [send, ← next]

variable {sends : List α} {t : τ}

theorem of_map_eq_send {f : σ → τ}
    (same : reaction.map f = send sends t) : ∃ s, reaction = send sends s ∧ f s = t := by
  obtain ⟨sent, next⟩ := reaction
  obtain ⟨rfl, goes⟩ := Reaction.mk.inj same
  obtain ⟨s, rfl, rfl⟩ := Option.map_eq_some_iff.1 goes
  exact ⟨s, rfl, rfl⟩

theorem of_andThen_eq_send {first : Reaction σ α} {second : σ → Reaction τ α}
    (same : first.andThen second = send sends t) :
    ∃ sent s later, first = send sent s ∧ second s = send later t ∧ sends = sent ++ later := by
  obtain ⟨sent, next⟩ := first
  cases next with
  | none => cases same
  | some s =>
    obtain ⟨rfl, goes⟩ := Reaction.mk.inj same
    exact ⟨sent, s, (second s).sends, rfl, eq_send goes, rfl⟩

/-- The computation succeeds, sends only elements with `sent` and ends in a state with `after`. -/
structure Meets (reaction : Reaction σ α) (sent : α → Prop) (after : σ → Prop) : Prop where
  sends : ∀ a ∈ reaction.sends, sent a
  next : ∃ s, reaction.next = some s ∧ after s

variable {sent : α → Prop} {after : σ → Prop} {later : τ → Prop}

theorem meets_send (all : ∀ a ∈ sends, sent a) (ends : after s) :
    Meets (send sends s) sent after := ⟨all, s, rfl, ends⟩

theorem Meets.map {f : σ → τ} (meets : Meets reaction sent after)
    (kept : ∀ s, after s → later (f s)) : Meets (reaction.map f) sent later := by
  obtain ⟨all, s, next, ends⟩ := meets
  exact ⟨all, f s, by simp [Reaction.map, next], kept s ends⟩

theorem Meets.andThen {first : Reaction σ α} {second : σ → Reaction τ α}
    (meets : Meets first sent after) (follows : ∀ s, after s → Meets (second s) sent later) :
    Meets (first.andThen second) sent later := by
  obtain ⟨all, s, next, ends⟩ := meets
  obtain ⟨rest, t, last, holds⟩ := follows s ends
  refine ⟨?_, t, by simp [Reaction.andThen, next, last], holds⟩
  intro a mem
  simp only [Reaction.andThen, next, List.mem_append] at mem
  exact mem.elim (all a) (rest a)

variable {body : κ → σ → Reaction σ α} {items : List κ}

theorem meets_forEach (start : after s) (keeps : ∀ k ∈ items, ∀ s, after s →
    Meets (body k s) sent after) : Meets (forEach body items s) sent after := by
  induction items generalizing s with
  | nil => exact meets_send (by simp) start
  | cons k rest ih =>
    exact (keeps k (by simp) s start).andThen fun t ends =>
      ih ends fun k mem => keeps k (List.mem_cons_of_mem _ mem)

theorem next_forEach (holds : σ → Prop) (keeps : ∀ k s t, holds s → (body k s).next = some t →
    holds t) {t : σ} (start : holds s) (ends : (forEach body items s).next = some t) : holds t := by
  induction items generalizing s with
  | nil =>
    cases ends
    exact start
  | cons k rest ih =>
    simp only [forEach, andThen] at ends
    cases goes : (body k s).next with
    | none => simp [goes] at ends
    | some middle =>
      simp only [goes] at ends
      exact ih (keeps k s middle start goes) ends

/-! ## Two computations side by side -/

structure Rel (related : σ → τ → Prop) (left : Reaction σ α) (right : Reaction τ α) : Prop where
  sends : left.sends = right.sends
  next : Option.Rel related left.next right.next

variable {ρ : Type} {related : σ → τ → Prop} {relatedAfter : ρ → ρ → Prop}

theorem rel_send (sends : List α) (ends : related s t) :
    Rel related (send sends s) (send sends t) := ⟨rfl, .some ends⟩

theorem rel_fail : Rel related (fail : Reaction σ α) fail := ⟨rfl, .none⟩

variable {left : Reaction σ α} {right : Reaction τ α}

theorem Rel.mono {weaker : σ → τ → Prop} (rel : Rel related left right)
    (implies : ∀ s t, related s t → weaker s t) : Rel weaker left right := by
  obtain ⟨sent, next⟩ := left
  obtain ⟨sent', next'⟩ := right
  obtain ⟨sends, goes⟩ := rel
  cases goes with
  | none => exact ⟨sends, .none⟩
  | some ends => exact ⟨sends, .some (implies _ _ ends)⟩

theorem Rel.map {f : σ → ρ} {g : τ → ρ} (rel : Rel related left right) (kept : ∀ s t, related s t →
    relatedAfter (f s) (g t)) : Rel relatedAfter (left.map f) (right.map g) := by
  obtain ⟨sent, next⟩ := left
  obtain ⟨sent', next'⟩ := right
  obtain ⟨sends, goes⟩ := rel
  cases goes with
  | none => exact ⟨sends, .none⟩
  | some ends => exact ⟨sends, .some (kept _ _ ends)⟩

theorem Rel.andThen {second : σ → Reaction ρ α} {twin : τ → Reaction ρ α} (first :
    Rel related left right) (follows : ∀ s t, related s t → Rel relatedAfter (second s) (twin t)) :
    Rel relatedAfter (left.andThen second) (right.andThen twin) := by
  obtain ⟨sent, next⟩ := left
  obtain ⟨sent', next'⟩ := right
  obtain ⟨sends, goes⟩ := first
  cases sends
  cases goes with
  | none => exact ⟨rfl, .none⟩
  | some ends =>
    obtain ⟨later, last⟩ := follows _ _ ends
    exact ⟨congrArg (sent ++ ·) later, last⟩

def Along (guard : σ → κ → Prop) (body : κ → σ → Reaction σ α) : List κ → σ → Prop
  | [], _ => True
  | k :: rest, s => guard s k ∧ ∀ t, (body k s).next = some t → Along guard body rest t

theorem along_trivial (items : List κ) (s : σ) : Along (fun _ _ => True) body items s := by
  induction items generalizing s with
  | nil => trivial
  | cons k rest ih => exact ⟨trivial, fun t _ => ih t⟩

theorem rel_forEach {twins : σ → σ → Prop} {guard : σ → κ → Prop}
    (keeps : ∀ k s t, twins s t → guard s k → Rel twins (body k s) (body k t))
    {t : σ} (start : twins s t) (along : Along guard body items s) :
    Rel twins (forEach body items s) (forEach body items t) := by
  induction items generalizing s t with
  | nil => exact rel_send [] start
  | cons k rest ih =>
    obtain ⟨met, later⟩ := along
    obtain ⟨sends, goes⟩ := keeps k s t start met
    simp only [forEach, Reaction.andThen]
    generalize body k t = right at sends goes ⊢
    generalize left : body k s = reaction at later sends goes ⊢
    obtain ⟨sent, next⟩ := reaction
    obtain ⟨sent', next'⟩ := right
    cases sends
    cases goes with
    | none => exact ⟨rfl, .none⟩
    | some ends =>
      have rest := ih ends (later _ rfl)
      exact ⟨congrArg (sent ++ ·) rest.sends, rest.next⟩

end Reaction
