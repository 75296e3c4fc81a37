import Mathlib.Data.List.Basic
import Mathlib.Data.List.Infix

/-!
# Paths

`clean` resolves `.` and `..` of a path without looking at the file system, and `join` cleans what
it joins. `locate` says which place a path means, seen from a working directory: the names on the
way to it, the innermost first.
-/

namespace Filepath

open List

abbrev Text := List Char

def up : Text := ['.', '.']

def elements (path : Text) : List Text := path.splitOn '/'

def rooted (path : Text) : Bool := path.head? = some '/'

def walk (rooted : Bool) (place : List Text) (name : Text) : List Text :=
  if name = [] ∨ name = ['.'] then place
  else if name = up then
    match place with
    | [] => if rooted then [] else [up]
    | top :: rest => if rooted = false ∧ top = up then up :: place else rest
  else name :: place

def names (path : Text) : List Text := (elements path).foldl (walk (rooted path)) []

/-- `filepath.Clean`: the shortest path with the same meaning. -/
def clean (path : Text) : Text :=
  if rooted path then '/' :: ['/'].intercalate (names path).reverse
  else if names path = [] then ['.'] else ['/'].intercalate (names path).reverse

/-- `filepath.Join`: empty elements at the front are left out. -/
def join (paths : List Text) : Text :=
  match paths.dropWhile isEmpty with
  | [] => []
  | first :: rest => clean (['/'].intercalate (first :: rest))

def origin (base : List Text) (path : Text) : List Text := if rooted path then [] else base

def locate (base : List Text) (path : Text) : List Text :=
  (elements path).foldl (walk true) (origin base path)

def Below (root place : List Text) : Prop := ∃ name inner, place = name :: inner ++ root

/-! ## Elements -/

def Plain (name : Text) : Prop := name ≠ [] ∧ name ≠ ['.'] ∧ name ≠ up

instance (name : Text) : Decidable (Plain name) := inferInstanceAs (Decidable (_ ∧ _ ∧ _))

variable {back : Text}

theorem plain_append {front : Text} (long : 3 ≤ back.length) : Plain (front ++ back) := by
  have length : 3 ≤ (front ++ back).length := by
    rw [length_append]
    omega
  refine ⟨?_, ?_, ?_⟩ <;> rintro same <;> simp [same, up] at length

variable {path : Text}

theorem not_mem_elements {name : Text} (mem : name ∈ elements path) : '/' ∉ name := by
  induction path generalizing name with
  | nil =>
    obtain rfl := mem_singleton.1 mem
    exact not_mem_nil
  | cons c path ih =>
    rw [elements, splitOn_cons_eq_if_modifyHead] at mem
    split at mem
    · obtain rfl | mem := mem_cons.1 mem
      · exact not_mem_nil
      · exact ih mem
    next other =>
      cases split : path.splitOn '/' with
      | nil => exact absurd split (splitOn_ne_nil _ _)
      | cons first rest =>
        have inside : ∀ x ∈ first :: rest, '/' ∉ x :=
          fun x mem => ih (split.symm ▸ mem : x ∈ path.splitOn '/')
        rw [split] at mem
        obtain rfl | mem := mem_cons.1 mem
        · have apart := inside first mem_cons_self
          simp only [beq_iff_eq] at other
          simp [apart, Ne.symm other]
        · exact inside name (mem_cons_of_mem _ mem)

variable {front : List Text}

theorem elements_append {last : Text} (split : elements path = front ++ [last])
    (flat : '/' ∉ back) : elements (path ++ back) = front ++ [last ++ back] := by
  induction path generalizing front last with
  | nil =>
    have whole : front ++ [last] = [[]] := split.symm
    obtain ⟨rfl, rfl⟩ : front = [] ∧ last = [] := by
      cases front with
      | nil => exact ⟨rfl, by simpa using whole⟩
      | cons first rest => simp at whole
    exact splitOn_eq_singleton flat
  | cons c path ih =>
    have split : (c :: path).splitOn '/' = front ++ [last] := split
    rw [splitOn_cons_eq_if_modifyHead] at split
    rw [elements, cons_append, splitOn_cons_eq_if_modifyHead]
    split at split
    next slash =>
      rw [if_pos slash]
      cases front with
      | nil => exact absurd (cons.inj split).2 (splitOn_ne_nil _ _)
      | cons first rest =>
        obtain ⟨rfl, inner⟩ := cons.inj split
        exact congrArg _ (ih inner)
    next other =>
      rw [if_neg other]
      cases inner : path.splitOn '/' with
      | nil => exact absurd inner (splitOn_ne_nil _ _)
      | cons head tail =>
        rw [inner] at split
        cases front with obtain ⟨rfl, rfl⟩ := cons.inj split
        | nil =>
          have rest : (path ++ back).splitOn '/' = [] ++ [head ++ back] := ih inner
          rw [rest]
          rfl
        | cons first rest =>
          have rest : (path ++ back).splitOn '/' = head :: rest ++ [last ++ back] := ih inner
          rw [rest]
          rfl

theorem rooted_append (path : Text) (flat : '/' ∉ back) : rooted (path ++ back) = rooted path := by
  cases path with
  | nil =>
    cases back with
    | nil => rfl
    | cons c back =>
      have apart : c ≠ '/' := fun same => flat (same ▸ mem_cons_self)
      simp [rooted, apart]
  | cons c path => rfl

/-! ## What a path leads to -/

variable {r : Bool} {place : List Text} {name : Text}

theorem walk_of_plain (plain : Plain name) : walk r place name = name :: place := by
  simp [walk, plain.1, plain.2.1, plain.2.2]

theorem foldl_walk_of_plain {path : List Text} (plain : ∀ x ∈ path, Plain x) (place : List Text) :
    path.foldl (walk r) place = path.reverse ++ place := by
  induction path generalizing place with
  | nil => rfl
  | cons name path ih =>
    rw [foldl_cons, walk_of_plain (plain name mem_cons_self),
      ih fun x mem => plain x (mem_cons_of_mem _ mem)]
    simp

theorem foldl_walk_nil {path : List Text} (none : ∀ x ∈ path, ¬ Plain x) :
    path.foldl (walk true) [] = [] := by
  induction path with
  | nil => rfl
  | cons name path ih =>
    have stays : walk true [] name = [] := by
      have vague := none name mem_cons_self
      simp only [Plain, not_and_or, not_not] at vague
      rcases vague with rfl | rfl | rfl <;> rfl
    rw [foldl_cons, stays]
    exact ih fun x mem => none x (mem_cons_of_mem _ mem)

theorem foldl_walk_vague (vague : ∀ x ∈ front, x = [] ∨ x = ['.']) (place : List Text) :
    front.foldl (walk r) place = place := by
  induction front with
  | nil => rfl
  | cons name front ih =>
    have stays : walk r place name = place := by
      rcases vague name mem_cons_self with rfl | rfl <;> rfl
    rw [foldl_cons, stays]
    exact ih fun x mem => vague x (mem_cons_of_mem _ mem)

/-- What `walk` leaves: names without slashes, and, on an unrooted path, steps up in front of them.
-/
structure Walked (r : Bool) (place : List Text) : Prop where
  element : ∀ x ∈ place, '/' ∉ x ∧ (Plain x ∨ r = false ∧ x = up)
  order : place.Pairwise fun inner outer => Plain outer → Plain inner

theorem Walked.walk (walked : Walked r place) (flat : '/' ∉ name) :
    Walked r (walk r place name) := by
  unfold Filepath.walk
  split
  · exact walked
  next named =>
    split
    next above =>
      cases place with
      | nil =>
        cases r with
        | true => exact walked
        | false => exact ⟨by simp [up], pairwise_singleton _ _⟩
      | cons top rest =>
        have order := pairwise_cons.1 walked.order
        dsimp only
        split
        next climbs =>
          refine ⟨?_, pairwise_cons.2 ⟨fun x mem plain => ?_, walked.order⟩⟩
          · intro x mem
            obtain rfl | mem := mem_cons.1 mem
            · exact ⟨by decide, .inr ⟨climbs.1, rfl⟩⟩
            · exact walked.element x mem
          · -- No name stands in front of a step up.
            obtain rfl | mem := mem_cons.1 mem
            · exact absurd climbs.2 plain.2.2
            · exact absurd climbs.2 (order.1 x mem plain).2.2
        · exact ⟨fun x mem => walked.element x (mem_cons_of_mem _ mem), order.2⟩
    next below =>
      have plain :
        Plain name := ⟨fun same => named (.inl same), fun same => named (.inr same), below⟩
      refine ⟨?_, pairwise_cons.2 ⟨fun _ _ _ => plain, walked.order⟩⟩
      intro x mem
      obtain rfl | mem := mem_cons.1 mem
      · exact ⟨flat, .inl plain⟩
      · exact walked.element x mem

theorem walked_names (path : Text) : Walked (rooted path) (names path) := by
  have rule : ∀ (list place : List Text), (∀ x ∈ list, '/' ∉ x) → Walked (rooted path) place →
      Walked (rooted path) (list.foldl (walk (rooted path)) place) := by
    intro list
    induction list with
    | nil => exact fun _ _ walked => walked
    | cons name list ih =>
      exact fun place flat walked => ih _ (fun x mem => flat x (mem_cons_of_mem _ mem))
        (walked.walk (flat name mem_cons_self))
  exact rule _ [] (fun _ => not_mem_elements) ⟨by simp, .nil⟩

theorem elements_clean (path : Text) : ∃ front, elements
    (clean path) = front ++ (names path).reverse ∧ ∀ x ∈ front, x = [] ∨ x = ['.'] := by
  have flat : ∀ x ∈ (names path).reverse, '/' ∉ x := fun x mem =>
    ((walked_names path).element x (mem_reverse.1 mem)).1
  unfold clean
  by_cases empty : names path = []
  · by_cases root : rooted path = true
    · refine ⟨[[], []], ?_, by simp⟩
      rw [if_pos root, empty]
      rfl
    · refine ⟨[['.']], ?_, by simp⟩
      rw [if_neg root, if_pos empty, empty]
      rfl
  · have split := splitOn_intercalate '/' flat (by simpa using empty)
    by_cases root : rooted path = true
    · refine ⟨[[]], ?_, by simp⟩
      rw [if_pos root, elements, splitOn_cons_eq_if_modifyHead, if_pos (by rfl), split]
      rfl
    · refine ⟨[], ?_, by simp⟩
      rw [if_neg root, if_neg empty, elements, split]
      rfl

theorem rooted_clean (path : Text) : rooted (clean path) = rooted path := by
  unfold clean
  by_cases root : rooted path = true
  · rw [if_pos root, root]
    rfl
  · rw [if_neg root, eq_false_of_ne_true root]
    by_cases empty : names path = []
    · rw [if_pos empty]
      rfl
    · rw [if_neg empty]
      cases listed : (names path).reverse with
      | nil => simp [empty] at listed
      | cons first rest =>
        obtain ⟨flat, named⟩ := (walked_names path).element first
          (mem_reverse.1 (listed ▸ mem_cons_self))
        cases first with
        | nil => exact absurd named (by simp [Plain, up])
        | cons c first =>
          have apart : c ≠ '/' := fun same => flat (same ▸ mem_cons_self)
          cases rest <;> simp [rooted, intercalate, apart]

theorem foldl_names (path : Text) (base : List Text) :
    (names path).reverse.foldl (walk true) (origin base path) = locate base path := by
  have rule : ∀ list place : List Text, Walked (rooted path) place → (∀ x ∈ list, '/' ∉ x) →
      (list.foldl (walk (rooted path)) place).reverse.foldl (walk true) (origin base path) =
        list.foldl (walk true) (place.reverse.foldl (walk true) (origin base path)) := by
    intro list
    induction list with
    | nil => exact fun _ _ _ => rfl
    | cons name list ih =>
      intro place walked flat
      rw [foldl_cons, foldl_cons, ih _ (walked.walk (flat name mem_cons_self))
        fun x mem => flat x (mem_cons_of_mem _ mem)]
      congr 1
      by_cases plain : Plain name
      · simp [walk_of_plain plain]
      simp only [Plain, not_and_or, not_not] at plain
      rcases plain with rfl | rfl | rfl
      · rfl
      · rfl
      · cases place with
        | nil =>
          by_cases root : rooted path = true
          · simp [walk, up, root, origin]
          · simp [walk, up, root]
        | cons top rest =>
          obtain plain | ⟨unrooted, rfl⟩ := (walked.element top mem_cons_self).2
          · -- A step up from a name goes back to where the name was followed.
            have back : ∀ place, walk true (top :: place) up = place := fun _ => by simp [walk, up]
            have popped : walk (rooted path) (top :: rest) up = rest := by
              simp [walk, show top ≠ up from plain.2.2, show up ≠ [] ∧ up ≠ ['.'] by decide]
            rw [popped, reverse_cons, foldl_append, foldl_cons, foldl_nil,
              walk_of_plain plain, back]
          · simp [walk, up, unrooted]
  exact rule _ [] ⟨by simp, .nil⟩ fun _ => not_mem_elements

theorem locate_clean (base : List Text) (path : Text) :
    locate base (clean path) = locate base path := by
  obtain ⟨front, split, vague⟩ := elements_clean path
  have same : origin base (clean path) = origin base path := by rw [origin, origin, rooted_clean]
  rw [locate, split, foldl_append, foldl_walk_vague vague, same, foldl_names]

theorem names_clean (path : Text) : names (clean path) = names path := by
  have rebuilt : ∀ place : List Text, Walked (rooted path) place →
      place.reverse.foldl (walk (rooted path)) [] = place := by
    intro place walked
    induction place with
    | nil => rfl
    | cons inner outer ih =>
      have rest := ih ⟨fun x mem => walked.element x (mem_cons_of_mem _ mem),
        (pairwise_cons.1 walked.order).2⟩
      rw [reverse_cons, foldl_append, rest, foldl_cons, foldl_nil]
      rcases (walked.element inner mem_cons_self).2 with plain | ⟨unrooted, rfl⟩
      · exact walk_of_plain plain
      · -- Only steps up stand before a step up.
        cases outer with
        | nil => simp [walk, up, unrooted]
        | cons top outer =>
          have vague : ¬ Plain top := fun plain =>
            ((pairwise_cons.1 walked.order).1 top mem_cons_self plain).2.2 rfl
          obtain ⟨-, rfl⟩ := (walked.element top (by simp)).2.resolve_left vague
          simp [walk, up, unrooted]
  obtain ⟨front, split, vague⟩ := elements_clean path
  rw [names, split, foldl_append, foldl_walk_vague vague, rooted_clean,
    rebuilt _ (walked_names path)]

theorem clean_clean (path : Text) : clean (clean path) = clean path := by
  rw [clean, rooted_clean, names_clean, ← clean]

theorem clean_ne_nil (path : Text) : clean path ≠ [] := by
  intro empty
  have none : names path = [] := by
    rw [← names_clean, empty]
    rfl
  rw [clean, none] at empty
  by_cases root : rooted path = true <;> simp [root] at empty

theorem names_ne_nil (named : locate [] path ≠ []) : names path ≠ [] := by
  intro empty
  have place := foldl_names path []
  rw [empty, reverse_nil, foldl_nil] at place
  exact named (place ▸ by simp [origin])

theorem elements_slash (path rest : Text) :
    elements (path ++ '/' :: rest) = elements path ++ elements rest := by
  rw [elements, splitOn_append_cons_self]
  rfl

theorem below_of_clean {base : List Text} {inner : Text} {rest : Text}
    (longer : clean inner = clean path ++ '/' :: rest) (named : locate [] path ≠ []) :
    Below (locate base path) (locate base inner) := by
  have split : elements (clean inner) = elements (clean path) ++ elements rest := by
    rw [longer, elements_slash]
  -- Behind the name in the shorter path, the longer one has only names.
  obtain ⟨name, mem, plain⟩ : ∃ x ∈ elements (clean path), Plain x := by
    by_contra none
    have nowhere := foldl_walk_nil fun x mem plain => none ⟨x, mem, plain⟩
    refine named ?_
    rw [← locate_clean, locate]
    simpa [origin] using nowhere
  have plains : ∀ x ∈ elements rest, Plain x := by
    obtain ⟨front, cleaned, vague⟩ := elements_clean inner
    have order :
      (elements (clean inner)).Pairwise fun outer inner => Plain outer → Plain inner := by
      rw [cleaned]
      refine pairwise_append.2 ⟨?_, pairwise_reverse.2 (walked_names inner).order, ?_⟩
      · exact pairwise_of_forall_mem_list fun x mem _ _ plain =>
          ((vague x mem).elim plain.1 plain.2.1).elim
      · exact fun x mem _ _ plain => ((vague x mem).elim plain.1 plain.2.1).elim
    rw [split] at order
    exact fun x inside => (pairwise_append.1 order).2.2 name mem x inside plain
  have same : origin base (clean inner) = origin base (clean path) := by
    have nonempty : clean path ≠ [] := by
      intro empty
      simp [empty, elements] at mem
      exact plain.1 mem
    cases found : clean path with
    | nil => exact absurd found nonempty
    | cons c front => simp [origin, rooted, longer, found]
  have place : locate base inner = (elements rest).reverse ++ locate base path := by
    rw [← locate_clean base inner, locate, split, foldl_append, same, ← locate_clean base path,
      foldl_walk_of_plain plains]
    rfl
  cases listed : (elements rest).reverse with
  | nil => exact absurd (reverse_eq_nil_iff.1 listed) (splitOn_ne_nil _ _)
  | cons last front => exact ⟨last, front, by rw [place, listed]⟩

/-! ## Longer paths -/

theorem rooted_slash (nonempty : path ≠ []) (rest : Text) :
    rooted (path ++ '/' :: rest) = rooted path := by
  cases path with
  | nil => exact absurd rfl nonempty
  | cons c path => rfl

theorem locate_slash (nonempty : path ≠ []) (base : List Text) (rest : Text) :
    locate base (path ++ '/' :: rest) = (elements rest).foldl (walk true) (locate base path) := by
  rw [locate, elements_slash, foldl_append, origin, rooted_slash nonempty]
  rfl

theorem join_of_ne_nil (nonempty : path ≠ []) (rest : Text) :
    join [path, rest] = clean (path ++ '/' :: rest) := by
  cases path with
  | nil => exact absurd rfl nonempty
  | cons c path => simp [join, intercalate]

structure Inside (path : Text) : Prop where
  relative : rooted path = false
  down : ∀ x ∈ names path, Plain x

theorem Inside.locate_join {rest : Text} (inside : Inside rest) (nonempty : path ≠ [])
    (base : List Text) : locate base (join [path, rest]) = names rest ++ locate base path := by
  have place := foldl_names rest (locate base path)
  rw [foldl_walk_of_plain fun x mem => inside.down x (mem_reverse.1 mem), reverse_reverse] at place
  rw [join_of_ne_nil nonempty, locate_clean, locate_slash nonempty]
  simpa [locate, origin, inside.relative] using place.symm

/-! ## The way from one place to another -/

def diverge : List Text → List Text → List Text × List Text
  | a :: first, b :: second => if a = b then diverge first second else (a :: first, b :: second)
  | first, second => (first, second)

/-- `filepath.Rel` for two places. -/
def rel (root place : List Text) : Text :=
  match diverge root.reverse place.reverse with
  | ([], []) => ['.']
  | (out, down) => ['/'].intercalate (out.map (fun _ => up) ++ down)

theorem diverge_append (common down : List Text) :
    diverge common (common ++ down) = ([], down) := by
  induction common with
  | nil => cases down <;> rfl
  | cons name common ih => simp [diverge, ih]

theorem rel_append {root inner : List Text} (nonempty : inner ≠ []) :
    rel root (inner ++ root) = ['/'].intercalate inner.reverse := by
  rw [rel, reverse_append, diverge_append]
  cases inner using reverseRecOn with
  | nil => exact absurd rfl nonempty
  | append_singleton outer name => simp

theorem intercalate_append {first second : List Text} (left : first ≠ [])
    (right : second ≠ []) : ['/'].intercalate
    (first ++ second) = ['/'].intercalate first ++ '/' :: ['/'].intercalate second := by
  induction first with
  | nil => exact absurd rfl left
  | cons name first ih =>
    cases first with
    | nil =>
      cases second with
      | nil => exact absurd rfl right
      | cons other second => simp [intercalate]
    | cons next first =>
      have step : ∀ rest : List Text, ['/'].intercalate (name :: next :: rest) =
          name ++ '/' :: ['/'].intercalate (next :: rest) := fun _ => by simp [intercalate]
      rw [cons_append, cons_append, step, step, ← cons_append, ih (by simp)]
      simp

section Names

variable {inner : List Text} (named : ∀ x ∈ inner, '/' ∉ x ∧ Plain x) (nonempty : inner ≠ [])
include named nonempty

theorem elements_rel (root : List Text) : elements (rel root (inner ++ root)) = inner.reverse := by
  rw [rel_append nonempty]
  exact splitOn_intercalate '/' (fun x mem => (named x (mem_reverse.1 mem)).1)
    (by simpa using nonempty)

theorem locate_rel {path : Text} (start : path ≠ []) (base root : List Text) :
    locate base (path ++ '/' :: rel root (inner ++ root)) = inner ++ locate base path := by
  rw [locate_slash start, elements_rel named nonempty,
    foldl_walk_of_plain fun x mem => (named x (mem_reverse.1 mem)).2, reverse_reverse]

theorem clean_rel {path : Text} (has : names path ≠ []) (root : List Text) :
    clean (clean path ++ '/' :: rel root (inner ++ root)) = clean path ++ '/' ::
    rel root (inner ++ root) := by
  have start : clean path ≠ [] := clean_ne_nil path
  have whole : names (clean path ++ '/' :: rel root (inner ++ root)) = inner ++ names path := by
    rw [names, rooted_slash start, elements_slash, foldl_append, ← names, names_clean,
      elements_rel named nonempty, foldl_walk_of_plain fun x mem => (named x (mem_reverse.1 mem)).2,
      reverse_reverse]
  have joined : ['/'].intercalate (inner ++ names path).reverse =
      ['/'].intercalate (names path).reverse ++ '/' :: rel root (inner ++ root) := by
    rw [reverse_append, intercalate_append (by simpa using has) (by simpa using nonempty),
      rel_append nonempty]
  rw [clean, whole, rooted_slash start, rooted_clean, joined]
  by_cases root : rooted path = true
  · rw [if_pos root, clean, if_pos root]
    rfl
  · rw [if_neg root, if_neg (by simp [nonempty]), clean, if_neg root, if_neg has]

end Names

/-! ## Endings -/

theorem locate_clean_append {last : Text} (split : elements path = front ++ [last])
    (flat : '/' ∉ back) (long : 3 ≤ back.length) (base : List Text) {more : Text}
      (flat' : '/' ∉ more) :
    locate base (clean (path ++ back) ++ more) =
      (last ++ back ++ more) :: front.foldl (walk true) (origin base path) := by
  have plain : Plain (last ++ back) := plain_append long
  have elementsOf := elements_append split flat
  have root := rooted_append path flat
  have start : origin base (path ++ back) = origin base path := by rw [origin, origin, root]
  have whole :
    locate base (path ++ back) = (last ++ back) :: front.foldl (walk true) (origin base path) := by
    rw [locate, elementsOf, start, foldl_append]
    exact walk_of_plain plain
  have ends : ∃ before, names (path ++ back) = (last ++ back) :: before := by
    refine ⟨front.foldl (walk (rooted path)) [], ?_⟩
    rw [names, elementsOf, root, foldl_append]
    exact walk_of_plain plain
  obtain ⟨before, named⟩ := ends
  obtain ⟨vague, cleaned, -⟩ := elements_clean (path ++ back)
  rw [named, reverse_cons, ← append_assoc] at cleaned
  have sibling :
    elements (clean (path ++ back) ++ more) = vague ++ before.reverse ++ [last ++ back ++ more] :=
    elements_append cleaned flat'
  have mem' : Plain (last ++ back ++ more) := by
    rw [append_assoc]
    exact plain_append (by rw [length_append]; omega)
  have root' : origin base (clean (path ++ back) ++ more) = origin base (clean (path ++ back)) := by
    rw [origin, origin, rooted_append _ flat']
  have place := locate_clean base (path ++ back)
  rw [locate, cleaned, foldl_append, foldl_cons, foldl_nil, walk_of_plain plain, whole] at place
  rw [locate, sibling, foldl_append, foldl_cons, foldl_nil, walk_of_plain mem', root',
    (cons.inj place).2]

def lead (dir front : Text) : Text := if dir = [] then front else dir ++ '/' :: front

theorem join_append (dir front : Text) (long : 3 ≤ back.length) :
    join [dir, front ++ back] = clean (lead dir front ++ back) := by
  have nonempty : front ++ back ≠ [] := fun empty => by
    have length := congrArg length empty
    rw [length_append, length_nil] at length
    omega
  cases dir with
  | nil => simp [join, lead, nonempty, intercalate]
  | cons c dir => simp [join, lead, intercalate]

theorem locate_join_append (base : List Text) (dir : Text) {name more : Text} (flat : '/' ∉ name)
    (long : 3 ≤ name.length) (flat' : '/' ∉ more) :
    locate base (join [dir, name] ++ more) = (name ++ more) :: locate base dir := by
  have joined : join [dir, name] = clean (lead dir [] ++ name) := join_append dir [] long
  by_cases empty : dir = []
  · subst empty
    rw [joined]
    have split : elements (lead [] []) = [] ++ [[]] := rfl
    rw [locate_clean_append split flat long base flat']
    rfl
  · have split : elements (lead dir []) = elements dir ++ [[]] := by
      rw [lead, if_neg empty, elements, splitOn_append_cons_self]
      rfl
    have start : origin base (lead dir []) = origin base dir := by
      cases dir with
      | nil => exact absurd rfl empty
      | cons c dir => rfl
    rw [joined, locate_clean_append split flat long base flat', start]
    rfl

end Filepath
