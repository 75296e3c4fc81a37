import Weibo.Lib.Chain

/-!
# Complete runs of processors

`Runs` is a processor reading a stream of elements, one reaction after another, none of which fails.
`Completes` is a complete run of a chain: every processor reads all that the one in front of it
sent, and flushes.
-/

namespace Chain

open List

variable {π α : Type} {proc : Processor π α}

/-- From state `p`, reading `input` sends `output` and ends in state `q`. -/
inductive Runs (proc : Processor π α) : π → List α → List α → π → Prop
  | nil (p : π) : Runs proc p [] [] p
  | cons {p q r : π} {a : α} {rest sends output : List α} (choice : Nat)
      (reacts : proc.react p choice a = .send sends q) (later : Runs proc q rest output r) :
      Runs proc p (a :: rest) (sends ++ output) r

/-- A processor reads its input to the end, is found in a state with `ok`, and flushes. -/
def Ends (proc : Processor π α) (ok : π → Prop) (p : π) (input output : List α) : Prop :=
  ∃ ran q choice flushed last, Runs proc p input ran q ∧ ok q ∧
    proc.flush q choice = .send flushed last ∧ output = ran ++ flushed

def Completes (proc : Processor π α) (ok : π → Prop) : List π → List α → List α → Prop
  | [], input, output => output = input
  | p :: rest, input, output =>
    ∃ between, Ends proc ok p input between ∧ Completes proc ok rest between output

variable {p q : π}

theorem Runs.append {r : π} {first second sent later : List α} (runs : Runs proc p first sent q)
    (goes : Runs proc q second later r) : Runs proc p (first ++ second) (sent ++ later) r := by
  induction runs with
  | nil p => exact goes
  | cons choice reacts _ ih =>
    rw [append_assoc]
    exact .cons choice reacts (ih goes)

variable {output : List α}

theorem Runs.split {r : π} {first second : List α}
    (runs : Runs proc p (first ++ second) output r) : ∃ q sent later, output = sent ++ later ∧
    Runs proc p first sent q ∧ Runs proc q second later r := by
  induction first generalizing p output with
  | nil => exact ⟨p, [], output, rfl, .nil p, runs⟩
  | cons a first ih =>
    cases runs with
    | cons choice reacts rest =>
      obtain ⟨q, sent, later, rfl, reads, goes⟩ := ih rest
      exact ⟨q, _, later, (append_assoc _ _ _).symm, .cons choice reacts reads, goes⟩

theorem Runs.of_singleton {a : α} (runs : Runs proc p [a] output q) :
    ∃ choice, proc.react p choice a = .send output q := by
  cases runs with
  | cons choice reacts rest =>
    cases rest
    exact ⟨choice, by simpa using reacts⟩

def Processor.readAll (proc : Processor π α) : (choices : Nat → Nat) → π → List α → Reaction π α
  | choices, p, [] => proc.flush p (choices 0)
  | choices, p, a :: rest =>
    (proc.react p (choices 0) a).andThen fun q => proc.readAll (fun i => choices (i + 1)) q rest

variable {input : List α}

theorem ends_of_readAll {choices : Nat → Nat} {last : π}
    (reads : proc.readAll choices p input = .send output last) :
    Ends proc (fun _ => True) p input output := by
  induction input generalizing choices p output with
  | nil => exact ⟨[], p, choices 0, output, last, .nil p, trivial, reads, rfl⟩
  | cons a rest ih =>
    obtain ⟨sends, q, later, reacts, goesOn, rfl⟩ := Reaction.of_andThen_eq_send reads
    obtain ⟨ran, r, choice, flushed, last, runs, holds, flush, rfl⟩ := ih goesOn
    exact ⟨sends ++ ran, r, choice, flushed, last, .cons _ reacts runs, holds, flush,
      (append_assoc _ _ _).symm⟩

theorem Runs.keeps {holds : π → Prop}
    (kept : ∀ p choice a sends q, holds p → proc.react p choice a = .send sends q → holds q)
    (start : holds p) (runs : Runs proc p input output q) : holds q := by
  induction runs with
  | nil p => exact start
  | cons choice reacts _ ih => exact ih (kept _ _ _ _ _ start reacts)

theorem Completes.mono {ok mem' : π → Prop} (weaker : ∀ p, ok p → mem' p) {ps : List π}
    (run : Completes proc ok ps input output) : Completes proc mem' ps input output := by
  induction ps generalizing input with
  | nil => exact run
  | cons p ps ih =>
    obtain ⟨between, ⟨ran, q, choice, flushed, last, runs, holds, flush, sent⟩, rest⟩ := run
    exact ⟨between, ⟨ran, q, choice, flushed, last, runs, weaker q holds, flush, sent⟩, ih rest⟩

/-! ## Elements that leave no trace -/

section Transparent

variable {marked : α → Bool}

structure Transparent (proc : Processor π α) (marked : α → Bool) where
  safe : π → Prop
  passes : ∀ p choice a, safe p → marked a = true → proc.react p choice a = .send [a] p
  plain : ∀ p choice a sends q, safe p → marked a = false → proc.react p choice a = .send sends q →
    safe q ∧ ∀ b ∈ sends, marked b = false
  flushed : ∀ p choice sends q, safe p → proc.flush p choice = .send sends q →
    ∀ b ∈ sends, marked b = false

variable (view : Transparent proc marked)

def unmarked (marked : α → Bool) (stream : List α) : List α :=
  stream.filter fun a => !marked a

@[simp]
theorem unmarked_append (first second : List α) :
    unmarked marked (first ++ second) = unmarked marked first ++ unmarked marked second :=
  filter_append ..

theorem unmarked_eq {stream : List α} (plain : ∀ a ∈ stream, marked a = false) :
    unmarked marked stream = stream :=
  filter_eq_self.2 fun a mem => by simp [plain a mem]

variable {p q : π}

theorem Transparent.kept {choice : Nat} {a : α} {sends : List α} (safe : view.safe p)
    (reacts : proc.react p choice a = .send sends q) : view.safe q := by
  cases kind : marked a with
  | false => exact (view.plain p choice a sends q safe kind reacts).1
  | true =>
    cases (view.passes p choice a safe kind).symm.trans reacts
    exact safe

variable {input output : List α}

theorem Runs.erase (safe : view.safe p) (runs : Runs proc p input output q) :
    Runs proc p (unmarked marked input) (unmarked marked output) q := by
  induction runs with
  | nil p => exact .nil p
  | @cons p q r a rest sends output choice reacts _ ih =>
    have later := ih (view.kept safe reacts)
    cases kind : marked a with
    | false =>
      have sent := unmarked_eq (view.plain p choice a sends q safe kind reacts).2
      rw [unmarked_append, sent]
      simpa [unmarked, kind] using Runs.cons choice reacts later
    | true =>
      cases (view.passes p choice a safe kind).symm.trans reacts
      simpa [unmarked, kind] using later

theorem Runs.last {m : α} (safe : view.safe p) (kind : marked m = true)
    (runs : Runs proc p (input ++ [m]) output q) :
    ∃ sent, output = sent ++ [m] ∧ Runs proc p input sent q := by
  obtain ⟨r, sent, later, rfl, reads, ends⟩ := runs.split
  obtain ⟨choice, reacts⟩ := ends.of_singleton
  have safe' := reads.keeps (fun _ _ _ _ _ safe reacts => view.kept safe reacts) safe
  cases (view.passes r choice m safe' kind).symm.trans reacts
  exact ⟨sent, rfl, reads⟩

variable {ok : π → Prop} {ps : List π}

theorem Completes.erase (safe : ∀ p ∈ ps, view.safe p) (run : Completes proc ok ps input output) :
    Completes proc ok ps (unmarked marked input) (unmarked marked output) := by
  induction ps generalizing input with
  | nil =>
    subst run
    rfl
  | cons p ps ih =>
    obtain ⟨between, ⟨ran, q, choice, flushed, last, runs, holds, flush, sent⟩, rest⟩ := run
    have safe_p := safe p mem_cons_self
    have safe_q := runs.keeps (fun _ _ _ _ _ safe reacts => view.kept safe reacts) safe_p
    refine ⟨unmarked marked between, ⟨unmarked marked ran, q, choice, flushed, last,
      runs.erase view safe_p, holds, flush, ?_⟩, ih (fun p mem => safe p (.tail _ mem)) rest⟩
    rw [sent, unmarked_append, unmarked_eq (view.flushed q choice flushed last safe_q flush)]

theorem Runs.filter_marked (safe : view.safe p)
    (runs : Runs proc p input output q) : output.filter marked = input.filter marked := by
  induction runs with
  | nil p => rfl
  | @cons p q r a rest sends output choice reacts _ ih =>
    rw [filter_append, ih (view.kept safe reacts)]
    cases kind : marked a with
    | false =>
      have none : sends.filter marked = [] := by
        simpa [filter_eq_nil_iff] using (view.plain p choice a sends q safe kind reacts).2
      simp [none, kind]
    | true =>
      cases (view.passes p choice a safe kind).symm.trans reacts
      simp [kind]

theorem Completes.filter_marked (safe : ∀ p ∈ ps, view.safe p)
    (run : Completes proc ok ps input output) : output.filter marked = input.filter marked := by
  induction ps generalizing input with
  | nil => rw [show output = input from run]
  | cons p ps ih =>
    obtain ⟨between, ⟨ran, q, choice, flushed, last, runs, -, flush, rfl⟩, rest⟩ := run
    have safe_p := safe p mem_cons_self
    have safe_q := runs.keeps (fun _ _ _ _ _ safe reacts => view.kept safe reacts) safe_p
    have none : flushed.filter marked = [] := by
      simpa [filter_eq_nil_iff] using view.flushed q choice flushed last safe_q flush
    rw [ih (fun p mem => safe p (.tail _ mem)) rest, filter_append, none, append_nil,
      runs.filter_marked view safe_p]

theorem Completes.last {m : α}
    (silent : ∀ p choice flushed q, ok p → proc.flush p choice = .send flushed q → flushed = [])
    (safe : ∀ p ∈ ps, view.safe p) (kind : marked m = true)
    (run : Completes proc ok ps (input ++ [m]) output) : ∃ sent, output = sent ++ [m] := by
  induction ps generalizing input with
  | nil => exact ⟨input, run⟩
  | cons p ps ih =>
    obtain ⟨between, ⟨ran, q, choice, flushed, last, runs, holds, flush, sent⟩, rest⟩ := run
    obtain ⟨ahead, rfl, -⟩ := runs.last view (safe p mem_cons_self) kind
    rw [silent q choice flushed last holds flush, append_nil] at sent
    subst sent
    exact ih (fun p mem => safe p (.tail _ mem)) rest

end Transparent

end Chain
