import Mathlib.Data.List.TakeWhile
import Weibo.Lib.Filepath

/-!
# Secret references

`resolveOne` replaces every `$\x7bNAME\x7d` in a text by the value of the secret, in one pass, and
then looks for what is left of malformed references in the result. The look covers the inserted
values too: a well-formed text is refused if its replacement contains an opening.
-/

namespace Weibo.Workflow

open List Option

open Filepath (Text)

/-- The two characters a reference starts with. -/
def opening : Text := ['$', '\x7b']

/-- `[A-Za-z_]`. -/
def isStart (c : Char) : Bool := c.isAlpha || c = '_'

/-- `[A-Za-z0-9_]`. -/
def isPart (c : Char) : Bool := c.isAlphanum || c = '_'

/-- The name in a match of `secretRefRe` at the front of a text. -/
def reference : Text → Option Text
  | '$' :: '\x7b' :: c :: rest =>
    if isStart c ∧ (rest.dropWhile isPart).head? = some '\x7d' then
      some (c :: rest.takeWhile isPart) else none
  | _ => none

/-- What `ReplaceAllStringFunc` makes of a text. -/
inductive Piece
  | char (c : Char)
  | secret (name : Text)
  deriving DecidableEq

/-- The pieces of a text after the characters to skip, those of the last match. -/
def pieces : Nat → Text → List Piece
  | _, [] => []
  | skip + 1, _ :: rest => pieces skip rest
  | 0, c :: rest =>
    match reference (c :: rest) with
    | some name => .secret name :: pieces (name.length + 2) rest
    | none => .char c :: pieces 0 rest

inductive ResolveError
  | unresolved (field name : Text)
  | invalidReference (field : Text)
  deriving DecidableEq

section Resolve

variable (resolve : Text → Option Text)

def Piece.replaced : Piece → Text
  | char c => [c]
  | secret name => (resolve name).getD []

/-- The name of a piece that does not resolve. -/
def Piece.unresolved : Piece → Option Text
  | char _ => none
  | secret name => if (resolve name).isNone then some name else none

def resolveOne (field value : Text) : Except ResolveError Text :=
  if ¬ opening <:+: value then .ok value
  else
    match (pieces 0 value).findSome? (Piece.unresolved resolve) with
    | some name => .error (.unresolved field name)
    | none =>
      let out := (pieces 0 value).flatMap (Piece.replaced resolve)
      if opening <:+: out then .error (.invalidReference field) else .ok out

/-- Every opening in a text starts a reference that resolves. -/
def WellFormed (value : Text) : Prop :=
  ∀ front back, value = front ++ opening ++ back →
    ∃ name, reference (opening ++ back) = some name ∧ (resolve name).isSome

/-- A text with its references replaced by the values of the secrets. -/
inductive Replaced : Text → Text → Prop
  | nil : Replaced [] []
  | char {c : Char} {rest out : Text} (plain : reference (c :: rest) = none)
      (more : Replaced rest out) :
      Replaced (c :: rest) (c :: out)
  | secret {name value rest out : Text}
      (matched : reference (opening ++ name ++ '\x7d' :: rest) = some name)
      (resolved : resolve name = some value) (more : Replaced rest out) :
      Replaced (opening ++ name ++ '\x7d' :: rest) (value ++ out)

end Resolve

/-! ## The scan -/

theorem exists_of_reference {text name : Text} (matched : reference text = some name) :
    ∃ rest, text = opening ++ name ++ '\x7d' :: rest ∧ ∀ c ∈ name, isPart c = true := by
  unfold reference at matched
  split at matched
  · next c rest =>
    split at matched
    · next fits =>
      cases matched
      obtain ⟨tail, closes⟩ : ∃ tail, rest.dropWhile isPart = '\x7d' :: tail := by
        cases left : rest.dropWhile isPart with
        | nil => simp [left] at fits
        | cons d tail => exact ⟨tail, by rw [show d = '\x7d' by simpa [left] using fits.2]⟩
      refine ⟨tail, ?_, ?_⟩
      · rw [← closes]
        simp [opening, takeWhile_append_dropWhile]
      · rintro d (_ | ⟨_, mem⟩)
        · have start := fits.1
          simp only [isStart, isPart, Char.isAlphanum, Bool.or_eq_true] at start ⊢
          tauto
        · exact (mem_takeWhile_imp mem)
    · cases matched
  · cases matched

theorem pieces_skip (skip : Nat) (text : Text) : pieces skip text = pieces 0 (text.drop skip) := by
  induction skip generalizing text with
  | zero => rfl
  | succ skip ih =>
    cases text with
    | nil => simp [pieces]
    | cons c rest => simpa [pieces] using ih rest

theorem pieces_char {c : Char} {rest : Text} (plain : reference (c :: rest) = none) :
    pieces 0 (c :: rest) = .char c :: pieces 0 rest := by
  simp [pieces, plain]

theorem pieces_secret {name rest : Text}
    (matched : reference (opening ++ name ++ '\x7d' :: rest) = some name) : pieces 0
    (opening ++ name ++ '\x7d' :: rest) = .secret name :: pieces 0 rest := by
  have scan : pieces 0 ('$' :: ('\x7b' :: name ++ '\x7d' :: rest)) =
      .secret name :: pieces (name.length + 2) ('\x7b' :: name ++ '\x7d' :: rest) := by
    simp only [pieces]
    rw [show reference ('$' :: ('\x7b' :: name ++ '\x7d' :: rest)) = some name from matched]
  refine scan.trans ?_
  rw [pieces_skip]
  simp [drop_append, drop_eq_nil_of_le]

theorem scan_induction {holds : Text → Prop} (nil : holds [])
    (char : ∀ c rest, reference (c :: rest) = none → holds rest → holds (c :: rest))
    (secret : ∀ name rest, reference (opening ++ name ++ '\x7d' :: rest) = some name →
      (∀ c ∈ name, isPart c = true) →
      holds rest → holds (opening ++ name ++ '\x7d' :: rest)) (text : Text) : holds text := by
  induction size : text.length using Nat.strong_induction_on generalizing text with
  | _ n ih =>
    subst size
    cases text with
    | nil => exact nil
    | cons c tail =>
      cases matched : reference (c :: tail) with
      | none => exact char c tail matched (ih tail.length (by simp) tail rfl)
      | some name =>
        obtain ⟨rest, whole, parts⟩ := exists_of_reference matched
        rw [whole] at matched ⊢
        exact secret name rest matched parts
          (ih rest.length (by simp [whole, opening]; omega) rest rfl)

theorem exists_of_not_mem {block rest front back : Text} (free : '$' ∉ block)
    (whole : block ++ rest = front ++ '$' :: back) : ∃ more, rest = more ++ '$' :: back := by
  induction block generalizing front with
  | nil => exact ⟨front, whole⟩
  | cons c block ih =>
    cases front with
    | nil =>
      obtain ⟨rfl, -⟩ := cons.inj whole
      exact absurd mem_cons_self free
    | cons d front => exact ih (fun mem => free (mem_cons_of_mem _ mem)) (cons.inj whole).2

theorem occurrence {value front back : Text} (whole : value = front ++ opening ++ back) :
    (∃ name, reference (opening ++ back) = some name ∧ .secret name ∈ pieces 0 value) ∨
    (reference (opening ++ back) = none ∧ ∀ resolve,
    opening <:+: (pieces 0 value).flatMap (Piece.replaced resolve)) := by
  induction value using scan_induction generalizing front with
  | nil => simp [opening] at whole
  | char c rest plain ih =>
    rw [pieces_char plain]
    cases front with obtain ⟨rfl, rfl⟩ := cons.inj whole
    | nil =>
      refine .inr ⟨plain, fun resolve => ?_⟩
      show opening <:+:
        (Piece.char '$' :: pieces 0 ('\x7b' :: back)).flatMap (Piece.replaced resolve)
      rw [pieces_char (show reference ('\x7b' :: back) = none from rfl)]
      exact ⟨[], (pieces 0 back).flatMap (Piece.replaced resolve), rfl⟩
    | cons d front =>
      rcases ih rfl with ⟨name, matched, mem⟩ | ⟨malformed, stays⟩
      · exact .inl ⟨name, matched, mem_cons_of_mem _ mem⟩
      · exact .inr ⟨malformed, fun resolve => infix_cons (stays resolve)⟩
  | secret name rest matched parts ih =>
    rw [pieces_secret matched]
    cases front with
    | nil =>
      rw [whole] at matched
      exact .inl ⟨name, matched, mem_cons_self⟩
    | cons d front =>
      have free : '$' ∉ '\x7b' :: name ++ ['\x7d'] := by
        intro mem
        rcases mem_append.1 mem with (_ | ⟨_, mem⟩) | mem
        · exact absurd (parts '$' mem) (by decide)
        · exact absurd mem (by decide)
      have tail : ('\x7b' :: name ++ ['\x7d']) ++ rest = front ++ '$' :: ('\x7b' :: back) := by
        simpa [opening] using (cons.inj whole).2
      obtain ⟨more, rfl⟩ := exists_of_not_mem free tail
      rcases @ih more (by simp [opening]) with ⟨name, matched, mem⟩ | ⟨malformed, stays⟩
      · exact .inl ⟨name, matched, mem_cons_of_mem _ mem⟩
      · exact .inr ⟨malformed, fun resolve => (stays resolve).trans (suffix_append _ _).isInfix⟩

theorem exists_opening {value name : Text} (mem : .secret name ∈ pieces 0 value) :
    ∃ front back, value = front ++ opening ++ back ∧ reference (opening ++ back) = some name := by
  induction value using scan_induction with
  | nil => cases mem
  | char c rest plain ih =>
    rw [pieces_char plain] at mem
    rcases mem_cons.1 mem with other | mem
    · cases other
    · obtain ⟨front, back, rfl, matched⟩ := ih mem
      exact ⟨c :: front, back, rfl, matched⟩
  | secret own rest matched parts ih =>
    rw [pieces_secret matched] at mem
    rcases mem_cons.1 mem with same | mem
    · cases same
      exact ⟨[], name ++ '\x7d' :: rest, by simp, by simpa using matched⟩
    · obtain ⟨front, back, rfl, found⟩ := ih mem
      exact ⟨opening ++ own ++ '\x7d' :: front, back, by simp, found⟩

section Resolve

variable {resolve : Text → Option Text} {value : Text}

theorem replaced_pieces (resolved : (pieces 0 value).findSome? (Piece.unresolved resolve) = none) :
    Replaced resolve value ((pieces 0 value).flatMap (Piece.replaced resolve)) := by
  induction value using scan_induction with
  | nil => exact .nil
  | char c rest plain ih =>
    rw [pieces_char plain] at resolved ⊢
    exact .char plain (ih (by simpa [Piece.unresolved] using resolved))
  | secret name rest matched parts ih =>
    rw [pieces_secret matched] at resolved ⊢
    cases found : resolve name with
    | none => simp [Piece.unresolved, found] at resolved
    | some secret =>
      rw [flatMap_cons, Piece.replaced, found]
      exact .secret matched found (ih (by simpa [Piece.unresolved, found] using resolved))

theorem pieces_of_plain (plain : ¬ opening <:+: value) : pieces 0 value = value.map .char := by
  induction value using scan_induction with
  | nil => rfl
  | char c rest none ih =>
    rw [pieces_char none, ih fun inside => plain (infix_cons inside), map_cons]
  | secret name rest matched parts ih =>
    exact absurd ⟨[], name ++ '\x7d' :: rest, by simp⟩ plain

theorem resolved_of_wellFormed (well : WellFormed resolve value) :
    (pieces 0 value).findSome? (Piece.unresolved resolve) = none := by
  refine List.findSome?_eq_none_iff.2 fun piece mem => ?_
  cases piece with
  | char c => rfl
  | secret name =>
    obtain ⟨front, back, whole, matched⟩ := exists_opening mem
    obtain ⟨own, same, resolves⟩ := well front back whole
    obtain rfl := some.inj (matched.symm.trans same)
    simp [Piece.unresolved, isNone_eq_false_iff.2 resolves]

end Resolve

/-- A value whose references are all well formed and resolvable is returned with each replaced,
unless a secret brings in another reference; any other value is refused; and which error is returned
does not depend on the secrets. -/
theorem resolveOne_spec (resolve : Text → Option Text) (field value : Text) :
    (WellFormed resolve value → ∃ out, Replaced resolve value out ∧
      (resolveOne resolve field value = .ok out ↔ ¬ opening <:+: out)) ∧
    (¬ WellFormed resolve value → ∃ e, resolveOne resolve field value = .error e) ∧
    ∀ other, (∀ name, (other name).isSome = (resolve name).isSome) → ∀ e e',
      resolveOne resolve field value = .error e → resolveOne other field value = .error e' →
        e = e' := by
  refine ⟨fun well => ?_, fun ill => ?_, fun other same e e' fails fails' => ?_⟩
  · have resolved := resolved_of_wellFormed well
    refine ⟨_, replaced_pieces resolved, ?_⟩
    by_cases has : opening <:+: value
    · simp [resolveOne, has, resolved]
    · have same : (pieces 0 value).flatMap (Piece.replaced resolve) = value := by
        rw [pieces_of_plain has, flatMap_map]
        simp [Piece.replaced]
      simp [resolveOne, has, same]
  · simp only [WellFormed, not_forall, not_exists, not_and] at ill
    obtain ⟨front, back, whole, bad⟩ := ill
    have has : opening <:+: value := ⟨front, back, whole.symm⟩
    cases first : (pieces 0 value).findSome? (Piece.unresolved resolve) with
    | some name => exact ⟨.unresolved field name, by simp [resolveOne, has, first]⟩
    | none =>
      rcases occurrence whole with ⟨name, matched, mem⟩ | ⟨_, stays⟩
      · have resolves := List.findSome?_eq_none_iff.1 first _ mem
        have missing : resolve name = none := by simpa using bad name matched
        simp [Piece.unresolved, missing] at resolves
      · exact ⟨.invalidReference field, by simp [resolveOne, has, first, stays resolve]⟩
  · have known : Piece.unresolved other = Piece.unresolved resolve := by
      funext piece
      cases piece with
      | char c => rfl
      | secret name =>
        have agree := same name
        cases found : other name <;> cases found' : resolve name <;>
          simp [Piece.unresolved, found, found'] at agree ⊢
    by_cases has : opening <:+: value
    · simp only [resolveOne, has, not_true_eq_false, if_false, known] at fails fails'
      cases first : (pieces 0 value).findSome? (Piece.unresolved resolve) with
      | some name =>
        rw [first] at fails fails'
        cases fails
        cases fails'
        rfl
      | none =>
        simp only [first] at fails fails'
        split at fails
        · split at fails'
          · cases fails
            cases fails'
            rfl
          · cases fails'
        · cases fails
    · simp [resolveOne, has] at fails

theorem wellFormed_reference {resolve : Text → Option Text}
    (known : (resolve ['A']).isSome = true) : WellFormed resolve ['$', '\x7b', 'A', '\x7d'] := by
  intro front back whole
  rcases front with _ | ⟨a, _ | ⟨b, _ | ⟨c, _ | ⟨d, rest⟩⟩⟩⟩ <;> simp [opening] at whole
  subst whole
  exact ⟨['A'], by decide, known⟩

/-- The reference is replaced. -/
theorem secret_replaced : ∃ out, Replaced (fun _ => some ['s']) ['$', '\x7b', 'A', '\x7d'] out ∧
    (resolveOne (fun _ => some ['s']) ['f'] ['$', '\x7b', 'A', '\x7d'] = .ok out ↔ ¬ opening <:+:
    out) ∧ resolveOne (fun _ => some ['s']) ['f'] ['$', '\x7b', 'A', '\x7d'] = .ok ['s'] := by
  obtain ⟨out, replaced, returned⟩ := (resolveOne_spec (fun _ => some ['s']) ['f']
    ['$', '\x7b', 'A', '\x7d']).1 (wellFormed_reference rfl)
  exact ⟨out, replaced, returned, by decide⟩

/-- The secret is itself the beginning of a reference. -/
theorem secret_refused : WellFormed (fun _ => some opening) ['$', '\x7b', 'A', '\x7d'] ∧
    Replaced (fun _ => some opening) ['$', '\x7b', 'A', '\x7d'] opening ∧ resolveOne (fun _ =>
    some opening) ['f'] ['$', '\x7b', 'A', '\x7d'] = .error (.invalidReference ['f']) := by
  have matched : reference (opening ++ ['A'] ++ '\x7d' :: []) = some ['A'] := by decide
  have replaced : Replaced (fun _ => some opening) _ (opening ++ []) := .secret matched rfl .nil
  exact ⟨wellFormed_reference rfl, replaced, by decide⟩

end Weibo.Workflow
