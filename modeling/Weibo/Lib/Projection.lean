import Weibo.Lib.ChainFlow

/-!
# Parts of a stream that do not interfere

A processor *projects* onto the visible elements of a stream when an invisible one changes nothing
that matters to them, and alike states make the same of a visible one. The visible part of what a
chain of them sends is determined by that of its input.
-/

namespace Chain

open List

variable {π α : Type} {proc : Processor π α} {visible : α → Bool}

/-- Every processor of a chain has read all that the one in front of it sent, and goes on or
has flushed. -/
def Reads (proc : Processor π α) : List π → List α → List α → Prop
  | [], input, output => output = input
  | p :: rest, input, output =>
    ∃ between, ((∃ q, Runs proc p input between q) ∨ Ends proc (fun _ => True) p input between) ∧
      Reads proc rest between output

theorem Flow.reads {μ : Type} {marker : α → Bool} {pace : Pacing proc marker μ} {origins : List π}
    {nodes : List (Node π α)} {entered left : List α} (flow : Flow pace origins nodes entered left)
    (rests : ∀ node ∈ nodes, Rests node) : Reads proc origins entered left := by
  induction nodes generalizing origins entered with
  | nil =>
    obtain ⟨rfl, same⟩ := flow.nil
    exact same.symm
  | cons node nodes ih =>
    obtain ⟨origin, origins, rfl, between, ⟨-, ⟨taken, whole, runs, ends⟩, -⟩, -, flow⟩ := flow.cons
    have rest := rests node (by simp)
    rw [rest.empty, append_nil] at whole
    rw [rest.pending, append_nil, ← whole] at runs ends
    refine ⟨between, ?_, ih flow fun n mem => rests n (by simp [mem])⟩
    cases state : node.phase.state with
    | some p => exact .inl ⟨p, runs p state⟩
    | none => exact .inr (ends state).2.2

structure Projection (proc : Processor π α) (visible : α → Bool) where
  safe : π → Prop
  fits : α → Prop
  alike : π → π → Prop
  symm : ∀ p q, alike p q → alike q p
  keeps : ∀ p q choice a sends, safe p → fits a → proc.react p choice a = .send sends q →
    safe q ∧ ∀ b ∈ sends, fits b
  hidden : ∀ p q twin choice a sends, safe p → fits a → alike p twin → visible a = false →
    proc.react p choice a = .send sends q → sends.filter visible = [] ∧ alike q twin
  shown : ∀ p q twin after choice order a sends sent, safe p → safe twin → fits a → alike p twin →
    visible a = true → proc.react p choice a = .send sends q →
    proc.react twin order a = .send sent after →
    sends.filter visible = sent.filter visible ∧ alike q after
  silent : ∀ p q choice sends, safe p → proc.flush p choice = .send sends q → sends = []

namespace Projection

variable (view : Projection proc visible) {p q twin after : π} {input output other sent : List α}

theorem runs_keep (safe : view.safe p) (fits : ∀ a ∈ input, view.fits a)
    (runs : Runs proc p input output q) : view.safe q ∧ ∀ b ∈ output, view.fits b := by
  induction runs with
  | nil p => exact ⟨safe, by simp⟩
  | cons choice reacts _ ih =>
    obtain ⟨kept, all⟩ := view.keeps _ _ choice _ _ safe (fits _ mem_cons_self) reacts
    obtain ⟨last, rest⟩ := ih kept fun a mem => fits a (.tail _ mem)
    exact ⟨last, fun b mem => (mem_append.1 mem).elim (all b) (rest b)⟩

theorem runs_hidden (safe : view.safe p) (fits : ∀ a ∈ input, view.fits a)
    (same : view.alike p twin) (invisible : ∀ a ∈ input, visible a = false)
    (runs : Runs proc p input output q) : output.filter visible = [] ∧ view.alike q twin := by
  induction runs with
  | nil p => exact ⟨rfl, same⟩
  | cons choice reacts _ ih =>
    have here := fits _ mem_cons_self
    obtain ⟨none, alike⟩ := view.hidden _ _ twin choice _ _ safe here same
      (invisible _ mem_cons_self) reacts
    obtain ⟨later, last⟩ := ih (view.keeps _ _ choice _ _ safe here reacts).1
      (fun a mem => fits a (.tail _ mem)) alike (fun a mem => invisible a (.tail _ mem))
    exact ⟨by rw [filter_append, none, later, append_nil], last⟩

theorem runs_agree (safe : view.safe p) (safe' : view.safe twin) (fits : ∀ a ∈ input, view.fits a)
    (fits' : ∀ a ∈ other, view.fits a) (same : view.alike p twin)
    (part : input.filter visible = other.filter visible) (runs : Runs proc p input output q)
    (twins : Runs proc twin other sent after) : output.filter visible = sent.filter visible := by
  induction runs generalizing twin other sent with
  | nil p =>
    have invisible : ∀ a ∈ other, visible a = false := by
      simpa [filter_eq_nil_iff] using part.symm
    exact (view.runs_hidden safe' fits' (view.symm _ _ same) invisible twins).1.symm
  | @cons p next _ a rest sends output choice reacts _ ih =>
    have here := fits a mem_cons_self
    have later : ∀ b ∈ rest, view.fits b := fun b mem => fits b (.tail _ mem)
    have kept := (view.keeps _ _ choice a _ safe here reacts).1
    cases kind : visible a with
    | false =>
      obtain ⟨none, alike⟩ := view.hidden _ _ twin choice a _ safe here same kind reacts
      rw [filter_cons_of_neg (by simp [kind])] at part
      rw [filter_append, none, nil_append]
      exact ih kept safe' later fits' alike part twins
    | true =>
      -- The other stream reaches this element behind some that are not visible.
      rw [filter_cons_of_pos kind] at part
      obtain ⟨front, back, rfl, invisible, -, rest_part⟩ := filter_eq_cons_iff.1 part.symm
      obtain ⟨middle, skipped, following, rfl, skips, goes⟩ := twins.split
      have front_fits : ∀ b ∈ front, view.fits b := fun b mem => fits' b (by simp [mem])
      have back_fits : ∀ b ∈ back, view.fits b := fun b mem => fits' b (by simp [mem])
      obtain ⟨nothing, alike⟩ := view.runs_hidden safe' front_fits (view.symm _ _ same)
        (by simpa using invisible) skips
      have middle_safe := (view.runs_keep safe' front_fits skips).1
      cases goes with
      | cons order answers rest_runs =>
        obtain ⟨equal, next_alike⟩ := view.shown _ _ _ _ choice order a _ _ safe middle_safe here
          (view.symm _ _ alike) kind reacts answers
        have next_safe := (view.keeps _ _ order a _ middle_safe here answers).1
        rw [filter_append, filter_append, filter_append, nothing, nil_append,
          equal, ih kept next_safe later back_fits next_alike rest_part.symm rest_runs]

theorem exists_runs (safe : view.safe p) (fits : ∀ a ∈ input, view.fits a)
    (reads : (∃ q, Runs proc p input output q) ∨ Ends proc (fun _ => True) p input output) :
    ∃ q, Runs proc p input output q := by
  rcases reads with runs | ⟨ran, q, choice, flushed, last, runs, -, flush, rfl⟩
  · exact runs
  · have kept := (view.runs_keep safe fits runs).1
    rw [view.silent q last choice flushed kept flush, append_nil]
    exact ⟨q, runs⟩

theorem reads_agree {ps twins : List π} (safe : ∀ p ∈ ps, view.safe p)
    (safe' : ∀ p ∈ twins, view.safe p) (same : Forall₂ view.alike ps twins)
    (fits : ∀ a ∈ input, view.fits a) (fits' : ∀ a ∈ other, view.fits a)
    (part : input.filter visible = other.filter visible) (reads : Reads proc ps input output)
    (mem' : Reads proc twins other sent) : output.filter visible = sent.filter visible := by
  induction same generalizing input other with
  | nil => rw [reads, mem', part]
  | @cons p twin ps twins alike _ ih =>
    obtain ⟨between, here, rest⟩ := reads
    obtain ⟨between', here', rest'⟩ := mem'
    have first := safe p mem_cons_self
    have first' := safe' twin mem_cons_self
    obtain ⟨q, runs⟩ := view.exists_runs first fits here
    obtain ⟨q', runs'⟩ := view.exists_runs first' fits' here'
    exact ih (fun p mem => safe p (.tail _ mem)) (fun p mem => safe' p (.tail _ mem))
      (view.runs_keep first fits runs).2 (view.runs_keep first' fits' runs').2
      (view.runs_agree first first' fits fits' alike part runs runs') rest rest'

theorem reads_keep {ps : List π} (safe : ∀ p ∈ ps, view.safe p) (fits : ∀ a ∈ input, view.fits a)
    (reads : Reads proc ps input output) : ∀ b ∈ output, view.fits b := by
  induction ps generalizing input with
  | nil => exact reads ▸ fits
  | cons p ps ih =>
    obtain ⟨between, here, rest⟩ := reads
    have first := safe p mem_cons_self
    obtain ⟨q, runs⟩ := view.exists_runs first fits here
    exact ih (fun p mem => safe p (.tail _ mem)) (view.runs_keep first fits runs).2 rest

end Projection

end Chain
