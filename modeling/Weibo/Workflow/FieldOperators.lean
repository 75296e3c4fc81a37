import Weibo.Workflow.Record

/-!
# Selecting and renaming fields

Selecting is a projection, whatever the order and overlap of the paths. A rename is a read, a write
and a removal: it moves the value exactly if the removal does not reach what was written.
-/

namespace Weibo.Workflow

open List Option

open Filepath (Text)

variable {ν : Type}

def selectFields (data : JSONRecord ν) (fields : List Text) : JSONRecord ν :=
  fields.foldl (fun out field =>
    match getField data field with
    | some value => (setField out field value).2
    | none => out) .empty

structure FieldRename where
  source : Text
  target : Text
  deriving DecidableEq

/-- A round of the loop of `BuildRename`. -/
def renameField (data : JSONRecord ν) (rename : FieldRename) : JSONRecord ν :=
  match getField data rename.source with
  | none => data
  | some value =>
    let written := setField data rename.target value
    if written.1.isSome then written.2 else (deleteField written.2 rename.source).2

def renameFields (data : JSONRecord ν) (renames : List FieldRename) : JSONRecord ν :=
  renames.foldl renameField data

/-- `RenameConfig.Validate`, which the workflow validator repeats in part. -/
def validRenames (renames : List FieldRename) : Bool :=
  !renames.isEmpty && renames.all fun rename => rename.source ≠ [] ∧ rename.target ≠ []

namespace JSONRecord

variable {data out : JSONRecord ν} {value held : Value ν} {p q front back : List Text} {s : Text}

theorem get_append (data : JSONRecord ν) (front : List Text) (more : back ≠ [])
    (named : front ≠ []) : data.get
    (front ++ back) = ((data.get front).bind Value.asObject).bind fun next => get next back := by
  induction front generalizing data with
  | nil => exact absurd rfl named
  | cons s front ih =>
    obtain ⟨t, back, rfl⟩ := exists_cons_of_ne_nil more
    cases front with
    | nil => cases held : (data s).bind Value.asObject <;> simp [get, held]
    | cons u front =>
      cases held : (data s).bind Value.asObject with
      | none => simp [get, held]
      | some next => simpa [get, held] using ih next (by simp)

theorem exists_above (front : List Text) (holds : data.get (front ++ back) = some value)
    (more : back ≠ []) (named : front ≠ []) : ∃ next : JSONRecord ν,
    data.get front = some (.object next) ∧ next.get back = some value := by
  rw [get_append data front more named] at holds
  obtain ⟨next, object, found⟩ := bind_eq_some_iff.1 holds
  obtain ⟨held, has, is⟩ := bind_eq_some_iff.1 object
  cases held with
  | object fields =>
    obtain rfl := some.inj is
    exact ⟨fields, has, found⟩
  | _ => cases is

theorem edit_of_present (new : Option (Value ν))
    (holds : data.get p = some value) : (data.edit new p).1 = none := by
  by_contra failed
  obtain ⟨front, back, held, rfl, more, found, plain⟩ := edit_failed_iff.1 failed
  obtain ⟨next, object, _⟩ := exists_above front holds more (ne_nil_of_get found)
  obtain rfl := some.inj (found.symm.trans object)
  cases plain

/-- What an edit below a name makes of the value under the name. -/
def editBelow (new : Option (Value ν)) (rest : List Text) (held : Option (Value ν)) :
    Option (Value ν) :=
  if rest = [] then new
  else match held with
    | none => if new.isNone then none else some (.object (edit new rest .empty).2)
    | some value =>
      match value.asObject with
      | none => some value
      | some next => some (.object (edit new rest next).2)

theorem edit_eq_update (new : Option (Value ν)) (s : Text) (rest : List Text) :
    (data.edit new (s :: rest)).2 = Function.update data s (editBelow new rest (data s)) := by
  by_cases last : rest = []
  · subst last
    rfl
  · rcases edit_cons data new s last with
      ⟨absent, rfl, done⟩ | ⟨held, has, plain, done⟩ | ⟨next, has, done⟩
    · rw [done, eq_comm, Function.update_eq_self_iff]
      simp [editBelow, last, absent]
    · rw [done, eq_comm, Function.update_eq_self_iff]
      simp [editBelow, last, has, plain]
    · rw [done]
      rcases has with has | ⟨absent, rfl, given⟩
      · simp [editBelow, last, has, Value.asObject]
      · simp [editBelow, last, absent, given]

theorem edit_comm {v w : Value ν} (one : data.get p = some v) (two : data.get q = some w)
    (out : JSONRecord ν) :
    ((out.edit (some v) p).2.edit (some w) q).2 = ((out.edit (some w) q).2.edit (some v) p).2 := by
  induction p generalizing data q out with
  | nil => cases one
  | cons s p ih =>
    cases q with
    | nil => cases two
    | cons u q =>
      simp only [edit_eq_update]
      by_cases same : u = s
      · subst same
        simp only [Function.update_self, Function.update_idem]
        congr 1
        by_cases short : p = []
        · subst short
          by_cases mem' : q = []
          · subst mem'
            rw [some.inj (one.symm.trans two)]
          · obtain ⟨next, object, found⟩ := exists_above [u] two mem' (by simp)
            obtain rfl := some.inj (one.symm.trans object)
            have kept := edit_same (edit_of_present (some w) found) found
            simp [editBelow, mem', Value.asObject, kept]
        · obtain ⟨next, object, found⟩ := exists_above [u] one short (by simp)
          by_cases mem' : q = []
          · subst mem'
            obtain rfl := some.inj (two.symm.trans object)
            have kept := edit_same (edit_of_present (some v) found) found
            simp [editBelow, short, Value.asObject, kept]
          · obtain ⟨next', object', other⟩ := exists_above [u] two mem' (by simp)
            cases some.inj (object.symm.trans object')
            cases held : out u with
            | none => simp [editBelow, short, mem', Value.asObject, ih found other]
            | some old =>
              cases old with
              | object below => simp [editBelow, short, mem', Value.asObject, ih found other]
              | _ => simp [editBelow, short, mem', Value.asObject]
      · rw [Function.update_of_ne same, Function.update_of_ne (Ne.symm same),
          Function.update_comm (Ne.symm same)]

theorem get_below (same : out.get p = data.get p) (named : p ≠ []) (back : List Text) :
    out.get (p ++ back) = data.get (p ++ back) := by
  by_cases more : back = []
  · simpa [more] using same
  · rw [get_append out p more named, same, get_append data p more named]

theorem get_empty (p : List Text) : (empty : JSONRecord ν).get p = none := by
  rcases p with _ | ⟨s, _ | ⟨t, rest⟩⟩ <;> rfl

theorem delete_absent (absent : data.get p = none) : (data.edit none p).2 = data := by
  by_cases failed : (data.edit none p).1 = none
  · exact edit_same failed absent
  · exact edit_failed failed

end JSONRecord

/-! ## Selection -/

def Value.Leaf (value : Value ν) : Prop :=
  ∀ fields, value.asObject = some fields → fields = JSONRecord.empty

/-- A record made of what the listed paths hold. -/
structure Copies (data out : JSONRecord ν) (fields : List Text) : Prop where
  held : ∀ q value, out.get q = some value →
    ∃ own, data.get q = some own ∧ (value.asObject = none → own.asObject = none)
  leaf : ∀ q value, out.get q = some value → value.Leaf →
    ∃ field ∈ fields, ∃ p, splitPath field = .ok p ∧ p <+: q
  listed : ∀ field ∈ fields, getField out field = getField data field

section Copies

open JSONRecord

variable {data out : JSONRecord ν} {fields : List Text} {field : Text} {p : List Text} {value :
    Value ν}

theorem Copies.edited (copies : Copies data out fields) (holds : data.get p = some value) :
    (out.edit (some value) p).1 = none := by
  by_contra failed
  obtain ⟨front, back, held, rfl, more, found, plain⟩ := edit_failed_iff.1 failed
  obtain ⟨own, there, mem'⟩ := copies.held front held found
  obtain ⟨next, object, _⟩ := exists_above front holds more (ne_nil_of_get found)
  obtain rfl := some.inj (there.symm.trans object)
  cases mem' plain

theorem Copies.step (copies : Copies data out fields) (well : splitPath field = .ok p)
    (holds : data.get p = some value) :
    Copies data (out.edit (some value) p).2 (fields ++ [field]) := by
  have named := splitPath_ne_nil well
  have there := get_edit (copies.edited holds) named
  have below := get_below (there.trans holds.symm) named
  -- A path lies at or below the new one, above it, or apart from it.
  have above {q r : List Text} {held : Value ν} (split : p = q ++ r) (more : r ≠ [])
      (found : (out.edit (some value) p).2.get q = some held) :
      ∃ next own : JSONRecord ν, held = .object next ∧ next.get r = some value ∧
        data.get q = some (.object own) := by
    have front := ne_nil_of_get found
    subst split
    obtain ⟨next, object, inner⟩ := exists_above q there more front
    obtain ⟨own, source, _⟩ := exists_above q holds more front
    exact ⟨next, own, some.inj (found.symm.trans object), inner, source⟩
  refine ⟨fun q held found => ?_, fun q held found leaf => ?_, fun other mem => ?_⟩
  · by_cases under : p <+: q
    · obtain ⟨r, rfl⟩ := under
      exact ⟨held, (below r).symm.trans found, id⟩
    · by_cases ahead : q <+: p
      · obtain ⟨r, split⟩ := ahead
        have more : r ≠ [] := fun none => under (by simp [← split, none])
        obtain ⟨next, own, rfl, -, source⟩ := above split.symm more found
        exact ⟨_, source, fun plain => by cases plain⟩
      · exact copies.held q held ((get_edit_apart under ahead).symm.trans found)
  · by_cases under : p <+: q
    · exact ⟨field, by simp, p, well, under⟩
    · by_cases ahead : q <+: p
      · obtain ⟨r, split⟩ := ahead
        have more : r ≠ [] := fun none => under (by simp [← split, none])
        obtain ⟨next, own, rfl, inner, -⟩ := above split.symm more found
        rw [leaf next rfl, get_empty] at inner
        cases inner
      · obtain ⟨old, mem, listed⟩ :=
          copies.leaf q held ((get_edit_apart under ahead).symm.trans found) leaf
        exact ⟨old, mem_append_left _ mem, listed⟩
  · rcases mem_append.1 mem with mem | mem
    · cases split : splitPath other with
      | error e => simp [getField, split]
      | ok q =>
        have listed := copies.listed other mem
        rw [getField_eq split, getField_eq split] at listed ⊢
        by_cases under : p <+: q
        · obtain ⟨r, rfl⟩ := under
          exact below r
        · by_cases ahead : q <+: p
          · obtain ⟨r, rfl⟩ := ahead
            have same := get_below listed (splitPath_ne_nil split) r
            rw [edit_same (copies.edited holds) (same.trans holds), listed]
          · rw [get_edit_apart under ahead, listed]
    · obtain rfl := mem_singleton.1 mem
      rw [getField_eq well, getField_eq well, there, holds]

theorem selectFields_copies (data : JSONRecord ν) (fields : List Text) :
    Copies data (selectFields data fields) fields := by
  have start : Copies data JSONRecord.empty [] :=
    ⟨fun q _ found =>
      by simp [get_empty] at found, fun q _ found => by simp [get_empty] at found, by simp⟩
  suffices ∀ done out, Copies data out done → Copies data (fields.foldl (fun out field =>
      match getField data field with
      | some value => (setField out field value).2
      | none => out) out) (done ++ fields) by
    exact this [] _ start
  induction fields with
  | nil => exact fun done out copies => by simpa using copies
  | cons field rest ih =>
    intro done out copies
    rw [foldl_cons, append_cons]
    refine ih (done ++ [field]) _ ?_
    cases holds : getField data field with
    | none =>
      refine ⟨copies.held, fun q value found leaf => ?_, fun other mem => ?_⟩
      · obtain ⟨old, mem, listed⟩ := copies.leaf q value found leaf
        exact ⟨old, mem_append_left _ mem, listed⟩
      · rcases mem_append.1 mem with mem | mem
        · exact copies.listed other mem
        · obtain rfl := mem_singleton.1 mem
          cases split : splitPath other with
          | error e => simp [getField, split]
          | ok p =>
            rw [holds, getField_eq split]
            cases found : out.get p with
            | none => rfl
            | some value =>
              obtain ⟨own, there, _⟩ := copies.held p value found
              rw [getField_eq split, there] at holds
              cases holds
    | some value =>
      cases split : splitPath field with
      | error e => simp [getField, split] at holds
      | ok p =>
        rw [getField_eq split] at holds
        show Copies data (editField (some value) out field).2 (done ++ [field])
        rw [(editField_eq split (some value) out).2]
        exact copies.step split holds

end Copies

/-- The selected fields keep their values, nothing else is left but the objects around them, and
neither the order of the list nor a second selection changes the result. -/
theorem select_projects (data : JSONRecord ν) (fields : List Text) :
    (∀ field ∈ fields, getField (selectFields data fields) field = getField data field) ∧
    (∀ q value, (selectFields data fields).get q = some value → value.Leaf →
      ∃ field ∈ fields, ∃ p, splitPath field = .ok p ∧ p <+: q) ∧
    (∀ other, other.Perm fields → selectFields data other = selectFields data fields) ∧
    selectFields (selectFields data fields) fields = selectFields data fields := by
  have copies := selectFields_copies data fields
  refine ⟨copies.listed, copies.leaf, fun other same => ?_, ?_⟩
  · refine same.foldl_eq' (fun a _ b _ out => ?_) _
    cases held : getField data a with
    | none => rfl
    | some v =>
      cases held' : getField data b with
      | none => rfl
      | some w =>
        cases first : splitPath a with
        | error e => simp [getField, first] at held
        | ok p =>
          cases second : splitPath b with
          | error e => simp [getField, second] at held'
          | ok q =>
            rw [getField_eq first] at held
            rw [getField_eq second] at held'
            simp only [setField, (editField_eq first (some v) _).2,
              (editField_eq second (some w) _).2]
            exact JSONRecord.edit_comm held held' out
  · -- The rounds of the second selection read what those of the first read.
    exact foldl_ext _ _ _ fun out field mem => by rw [copies.listed field mem]

/-! ## Renaming -/

open JSONRecord in
/-- A rename moves the value, and leaves the fields beside both paths alone, exactly if the target
is not at or below the source and the value has nothing at what is left of a source below the
target. A rename whose target cannot be set changes nothing. -/
theorem rename_field (data : JSONRecord ν) (rename : FieldRename) :
    (∀ f t value, splitPath rename.source = .ok f → splitPath rename.target = .ok t →
      getField data rename.source = some value → (setField data rename.target value).1 = none →
      (getField (renameField data rename) rename.target = some value ↔
        ¬ f <+: t ∧ ∀ fields, value.asObject = some fields → ∀ r, f = t ++ r →
          JSONRecord.get fields r = none) ∧
      (¬ f <+: t → ¬ t <+: f → getField (renameField data rename) rename.source = none) ∧
      ∀ other q, splitPath other = .ok q → ¬ f <+: q → ¬ q <+: f → ¬ t <+: q → ¬ q <+: t →
        getField (renameField data rename) other = getField data other) ∧
    ((∀ value, getField data rename.source = some value →
      (setField data rename.target value).1 ≠ none) →
      renameField data rename = data) ∧
    ∀ renames,
      renameFields data (rename :: renames) = renameFields (renameField data rename) renames := by
  refine ⟨fun f t value source target present settable => ?_, fun stuck => ?_, fun renames => rfl⟩
  · have renamed : renameField data rename = ((data.edit (some value) t).2.edit none f).2 := by
      simp only [renameField, present, settable, isSome_none, Bool.false_eq_true, if_false]
      rw [deleteField, setField, (editField_eq source none _).2,
        (editField_eq target (some value) _).2]
    rw [renamed, getField_eq source, getField_eq target]
    rw [getField_eq source] at present
    have written :=
      get_edit ((editField_eq target (some value) data).1.1 settable) (splitPath_ne_nil target)
    have named := splitPath_ne_nil source
    generalize wrote : (data.edit (some value) t).2 = out at written
    refine ⟨?_, fun below above => ?_, fun other q well below above below' above' => ?_⟩
    · by_cases under : f <+: t
      · -- The removal takes the written value with it.
        obtain ⟨r, rfl⟩ := under
        have gone : (out.edit none f).2.get (f ++ r) = none := by
          by_cases more : r = []
          · subst more
            rw [append_nil] at written ⊢
            exact get_edit (edit_of_present none written) named
          · obtain ⟨next, object, _⟩ := exists_above f written more named
            rw [get_append _ f more named, get_edit (edit_of_present none object) named]
            rfl
        simp [gone]
      · by_cases ahead : t <+: f
        · -- The removal reaches into the written value.
          obtain ⟨r, rfl⟩ := ahead
          have more : r ≠ [] := fun none => under (by simp [none])
          have inner :
            out.get (t ++ r) = value.asObject.bind fun next => JSONRecord.get next r := by
            rw [get_append out t more (splitPath_ne_nil target), written]
            rfl
          constructor
          · intro kept
            refine ⟨under, fun fields object r' same => ?_⟩
            obtain rfl := append_cancel_left same
            by_contra there
            obtain ⟨held, found⟩ := ne_none_iff_exists'.1 there
            have holds : out.get (t ++ r) = some held := by
              rw [inner, object]
              exact found
            have gone := get_edit (edit_of_present none holds) named
            rw [get_below (kept.trans written.symm) (splitPath_ne_nil target) r, holds] at gone
            cases gone
          · rintro ⟨_, absent⟩
            have missing : out.get (t ++ r) = none := by
              rw [inner]
              cases object : value.asObject with
              | none => rfl
              | some fields => exact absent fields object r rfl
            rw [delete_absent missing, written]
        · rw [get_edit_apart under ahead, written]
          exact ⟨fun _ => ⟨under, fun _ _ r same => absurd ⟨r, same.symm⟩ ahead⟩, fun _ => rfl⟩
    · have kept : out.get f = some value := by rw [← wrote, get_edit_apart above below, present]
      exact get_edit (edit_of_present none kept) named
    · rw [getField_eq well, getField_eq well, get_edit_apart below above, ← wrote,
        get_edit_apart below' above']
  · cases present : getField data rename.source with
    | none => simp [renameField, present]
    | some value =>
      have failed := stuck value present
      simp only [renameField, present]
      rw [if_pos (isSome_iff_ne_none.2 failed)]
      exact editField_failed failed

def single : JSONRecord Nat := fun s => if s = ['a'] then some (.number 1) else none

/-- The field is moved. -/
theorem rename_moves : getField (renameField single ⟨['a'], ['b']⟩) ['b'] = some (.number 1) ∧
    getField (renameField single ⟨['a'], ['b']⟩) ['a'] = none := by
  obtain ⟨target, source, -⟩ :=
    (rename_field single ⟨['a'], ['b']⟩).1 [['a']] [['b']] (.number 1) rfl rfl rfl rfl
  exact ⟨target.2 ⟨by decide, fun _ object => nomatch object⟩, source (by decide) (by decide)⟩

/-- Renamed to itself, the field is removed. -/
theorem rename_loses : validRenames [⟨['a'], ['a']⟩] = true ∧
    getField single ['a'] = some (.number 1) ∧ (setField single ['a'] (.number 1)).1 = none ∧
    getField (renameFields single [⟨['a'], ['a']⟩]) ['a'] = none :=
  ⟨rfl, rfl, rfl, rfl⟩

end Weibo.Workflow
