import Mathlib.Data.List.Basic
import Weibo.Lib.Filepath

/-!
# JSON records and dotted paths

Decoded JSON objects are read and changed by dotted path. Go's maps are references, so `edit`
returns the record as the call leaves it, also when the call fails. A map is the partial function it
holds.
-/

namespace Weibo.Workflow

open List Option Function

open Filepath (Text)

/-- A decoded JSON value; a number is its literal. -/
inductive Value (ν : Type)
  | null
  | bool (b : Bool)
  | number (n : ν)
  | string (text : Text)
  | array (items : List (Value ν))
  | object (fields : Text → Option (Value ν))

/-- `JSONRecord`, and any nested object. -/
abbrev JSONRecord (ν : Type) := Text → Option (Value ν)

variable {ν : Type}

def Value.asObject : Value ν → Option (JSONRecord ν)
  | .object fields => some fields
  | _ => none

/-- `JSONRecord{}`. -/
def JSONRecord.empty : JSONRecord ν := fun _ => none

inductive PathError
  | empty
  | emptySegment (path : Text)
  /-- The path, and its front that holds no object. -/
  | notObject (path front : Text)
  deriving DecidableEq

def splitPath (path : Text) : Except PathError (List Text) :=
  if path = [] then .error .empty
  else if (path.splitOn '.').any (· = []) then .error (.emptySegment path)
  else .ok (path.splitOn '.')

/-- The loop of `GetField`. -/
def JSONRecord.get : JSONRecord ν → List Text → Option (Value ν)
  | _, [] => none
  | cur, [s] => cur s
  | cur, s :: t :: rest =>
    match (cur s).bind Value.asObject with
    | some next => get next (t :: rest)
    | none => none

/-- The loop of `SetField`, and with no value that of `DeleteField`: the front of the path at which
it fails, and the record it leaves. -/
def JSONRecord.edit (value : Option (Value ν)) :
    List Text → JSONRecord ν → Option (List Text) × JSONRecord ν
  | [], cur => (none, cur)
  | [s], cur => (none, update cur s value)
  | s :: t :: rest, cur =>
    match cur s with
    | none =>
      if value.isNone then (none, cur)
      else
        let below := edit value (t :: rest) .empty
        (below.1.map (s :: ·), update cur s (some (.object below.2)))
    | some held =>
      match held.asObject with
      | none => (some [s], cur)
      | some next =>
        let below := edit value (t :: rest) next
        (below.1.map (s :: ·), update cur s (some (.object below.2)))

def getField (data : JSONRecord ν) (path : Text) : Option (Value ν) :=
  match splitPath path with
  | .error _ => none
  | .ok segs => data.get segs

/-- `SetField` and `DeleteField`. -/
def editField (value : Option (Value ν)) (data : JSONRecord ν) (path : Text) :
    Option PathError × JSONRecord ν :=
  match splitPath path with
  | .error e => (some e, data)
  | .ok segs =>
    let done := data.edit value segs
    (done.1.map fun front => .notObject path (['.'].intercalate front), done.2)

def setField (data : JSONRecord ν) (path : Text) (value : Value ν) :
    Option PathError × JSONRecord ν :=
  editField (some value) data path

def deleteField (data : JSONRecord ν) (path : Text) : Option PathError × JSONRecord ν :=
  editField none data path

/-! ## Edits of a record -/

namespace JSONRecord

variable {data next : JSONRecord ν} {value : Option (Value ν)} {s t : Text} {rest p q : List Text}

theorem get_cons (held : data s = some (.object next)) (more : rest ≠ []) :
    data.get (s :: rest) = next.get rest := by
  obtain ⟨t, rest, rfl⟩ := exists_cons_of_ne_nil more
  simp [get, held, Value.asObject]

theorem ne_nil_of_get {held : Value ν} (found : data.get p = some held) : p ≠ [] := by
  rintro rfl
  cases found

theorem edit_cons (data : JSONRecord ν) (value : Option (Value ν)) (s : Text) (more : rest ≠ []) :
    (data s = none ∧ value = none ∧ data.edit value (s :: rest) = (none, data)) ∨
    (∃ held, data s = some held ∧ held.asObject = none ∧
      data.edit value (s :: rest) = (some [s], data)) ∨
    ∃ next : JSONRecord ν,
      (data s = some (.object next) ∨ data s = none ∧ next = .empty ∧ value ≠ none) ∧
      data.edit value (s :: rest) = ((next.edit value rest).1.map (s :: ·),
        update data s (some (.object (next.edit value rest).2))) := by
  obtain ⟨t, rest, rfl⟩ := exists_cons_of_ne_nil more
  cases held : data s with
  | none =>
    cases value with
    | none => exact .inl ⟨rfl, rfl, by simp [edit, held]⟩
    | some v => exact .inr (.inr ⟨JSONRecord.empty, .inr ⟨rfl, rfl, by simp⟩, by simp [edit, held]⟩)
  | some v =>
    cases v with
    | object next => exact .inr (.inr ⟨next, .inl rfl, by simp [edit, held, Value.asObject]⟩)
    | _ => exact .inr (.inl ⟨_, rfl, rfl, by simp [edit, held, Value.asObject]⟩)

theorem edit_empty (value : Option (Value ν)) (p : List Text) :
    (edit value p (.empty : JSONRecord ν)).1 = none := by
  induction p with
  | nil => rfl
  | cons s rest ih =>
    by_cases last : rest = []
    · subst last
      rfl
    · rcases edit_cons .empty value s last with
        ⟨_, _, done⟩ | ⟨held, has, _⟩ | ⟨next, has | ⟨_, rfl, _⟩, done⟩
      · rw [done]
      · cases has
      · cases has
      · rw [done, ih, map_none]

theorem edit_failed (failed : (data.edit value p).1 ≠ none) : (data.edit value p).2 = data := by
  induction p generalizing data with
  | nil => rfl
  | cons s rest ih =>
    by_cases last : rest = []
    · subst last
      exact absurd rfl failed
    · rcases edit_cons data value s last with
        ⟨_, _, done⟩ | ⟨held, _, _, done⟩ | ⟨next, has | ⟨_, rfl, _⟩, done⟩
      · rw [done]
      · rw [done]
      · rw [done] at failed ⊢
        rw [ih fun fine => failed (by rw [fine, map_none]), ← has, update_eq_self]
      · rw [done, edit_empty] at failed
        exact absurd rfl failed

theorem get_edit (edited : (data.edit value p).1 = none)
    (named : p ≠ []) : (data.edit value p).2.get p = value := by
  induction p generalizing data with
  | nil => exact absurd rfl named
  | cons s rest ih =>
    by_cases last : rest = []
    · subst last
      simp [edit, get]
    · rcases edit_cons data value s last with
        ⟨absent, rfl, done⟩ | ⟨held, _, _, done⟩ | ⟨next, _, done⟩
      · obtain ⟨t, rest, rfl⟩ := exists_cons_of_ne_nil last
        rw [done]
        simp [get, absent]
      · rw [done] at edited
        cases edited
      · rw [done] at edited ⊢
        rw [get_cons (update_self ..) last]
        exact ih (map_eq_none_iff.1 edited) last

theorem get_edit_apart (below : ¬ p <+: q)
    (above : ¬ q <+: p) : (data.edit value p).2.get q = data.get q := by
  induction p generalizing data q with
  | nil => exact absurd (List.nil_prefix) below
  | cons s rest ih =>
    obtain ⟨u, tail, rfl⟩ :=
      exists_cons_of_ne_nil (l := q) fun none => above (none ▸ List.nil_prefix)
    have elsewhere (other : u ≠ s) (new : Option (Value ν)) :
        get (update data s new) (u :: tail) = data.get (u :: tail) := by
      cases tail <;> simp [get, update_of_ne other]
    by_cases last : rest = []
    · subst last
      exact elsewhere (fun same => below (by simp [same])) value
    · rcases edit_cons data value s last with ⟨_, _, done⟩ | ⟨held, _, _, done⟩ | ⟨next, has, done⟩
      · rw [done]
      · rw [done]
      · rw [done]
        by_cases same : u = s
        · subst same
          have more : tail ≠ [] := fun none => above (by simp [none])
          rw [get_cons (update_self ..) more,
            ih (fun sub => below (by simpa using sub)) fun sub => above (by simpa using sub)]
          obtain ⟨t, tail, rfl⟩ := exists_cons_of_ne_nil more
          rcases has with has | ⟨absent, rfl, _⟩
          · exact (get_cons has more).symm
          · cases tail <;> simp [get, absent, empty]
        · exact elsewhere same _

theorem edit_same (edited : (data.edit value p).1 = none)
    (holds : data.get p = value) : (data.edit value p).2 = data := by
  induction p generalizing data with
  | nil => rfl
  | cons s rest ih =>
    by_cases last : rest = []
    · subst last
      simp only [get] at holds
      rw [edit, ← holds, update_eq_self]
    · rcases edit_cons data value s last with
        ⟨_, _, done⟩ | ⟨held, _, _, done⟩ | ⟨next, has | ⟨absent, _, given⟩, done⟩
      · rw [done]
      · rw [done]
      · rw [done] at edited ⊢
        rw [ih (map_eq_none_iff.1 edited) ((get_cons has last).symm.trans holds), ← has,
          update_eq_self]
      · obtain ⟨t, rest, rfl⟩ := exists_cons_of_ne_nil last
        exact absurd (holds.symm.trans (by simp [get, absent])) given

theorem edit_failed_iff : (data.edit value p).1 ≠ none ↔ ∃ front back held, p = front ++ back ∧
    back ≠ [] ∧ data.get front = some held ∧ held.asObject = none := by
  induction p generalizing data with
  | nil => simp [edit]
  | cons s rest ih =>
    constructor
    · intro failed
      by_cases last : rest = []
      · subst last
        exact absurd rfl failed
      · rcases edit_cons data value s last with
          ⟨_, _, done⟩ | ⟨held, has, plain, done⟩ | ⟨next, has | ⟨_, rfl, _⟩, done⟩
        · rw [done] at failed
          exact absurd rfl failed
        · exact ⟨[s], rest, held, rfl, last, has, plain⟩
        · rw [done] at failed
          obtain ⟨front, back, held, rfl, more, found, plain⟩ :=
            ih.1 fun fine => failed (by rw [fine]; rfl)
          exact ⟨s :: front, back, held, rfl, more,
            (get_cons has (ne_nil_of_get found)).trans found, plain⟩
        · rw [done, edit_empty] at failed
          exact absurd rfl failed
    · rintro ⟨front, back, held, whole, more, found, plain⟩
      cases front with
      | nil => cases found
      | cons u front =>
        rw [cons_append, cons.injEq] at whole
        obtain ⟨rfl, rfl⟩ := whole
        have last : front ++ back ≠ [] := by simp [more]
        rcases edit_cons data value s last with
          ⟨absent, _, _⟩ | ⟨other, has, plain, done⟩ | ⟨next, has, done⟩
        · cases front <;> simp [get, absent] at found
        · simp [done]
        · rw [done]
          cases front with
          | nil =>
            rcases has with has | ⟨absent, _⟩
            · obtain rfl := some.inj (has.symm.trans found)
              cases plain
            · exact absurd (absent.symm.trans found) (by simp)
          | cons t front =>
            rcases has with has | ⟨absent, _⟩
            · rw [get_cons has (by simp)] at found
              exact fun fine =>
                ih.2 ⟨t :: front, back, held, rfl, more, found, plain⟩ (map_eq_none_iff.1 fine)
            · simp [get, absent] at found

theorem edit_again (other : Option (Value ν)) (edited : (data.edit value p).1 = none) :
    ((data.edit value p).2.edit other p).1 = none := by
  induction p generalizing data with
  | nil => rfl
  | cons s rest ih =>
    by_cases last : rest = []
    · subst last
      rfl
    · rcases edit_cons data value s last with
        ⟨absent, _, done⟩ | ⟨held, _, _, done⟩ | ⟨next, _, done⟩
      · rw [done]
        rcases edit_cons data other s last with
          ⟨_, _, more⟩ | ⟨held, has, _⟩ | ⟨next, has | ⟨_, rfl, _⟩, more⟩
        · rw [more]
        · exact absurd (absent.symm.trans has) (by simp)
        · exact absurd (absent.symm.trans has) (by simp)
        · rw [more, edit_empty, map_none]
      · rw [done] at edited
        cases edited
      · rw [done] at edited ⊢
        have below := ih (map_eq_none_iff.1 edited)
        obtain ⟨t, rest, rfl⟩ := exists_cons_of_ne_nil last
        simp [edit, Value.asObject, below]

end JSONRecord

/-! ## The laws of dotted paths -/

variable {data : JSONRecord ν} {path : Text} {p : List Text}

theorem splitPath_ne_nil (well : splitPath path = .ok p) : p ≠ [] := by
  unfold splitPath at well
  split at well
  · cases well
  · split at well
    · cases well
    · cases well
      exact splitOn_ne_nil _ _

theorem getField_eq (well : splitPath path = .ok p)
    (data : JSONRecord ν) : getField data path = data.get p := by
  simp [getField, well]

theorem editField_eq (well : splitPath path = .ok p) (value : Option (Value ν))
    (data : JSONRecord ν) :
    ((editField value data path).1 = none ↔ (data.edit value p).1 = none) ∧
      (editField value data path).2 = (data.edit value p).2 := by
  simp [editField, well]

theorem editField_failed {value : Option (Value ν)}
    (failed : (editField value data path).1 ≠ none) : (editField value data path).2 = data := by
  cases split : splitPath path with
  | error e => simp [editField, split]
  | ok p =>
    obtain ⟨outcome, left⟩ := editField_eq split value data
    rw [left, JSONRecord.edit_failed (mt outcome.2 failed)]

theorem editField_again (edited : (deleteField data path).1 = none) :
    deleteField (deleteField data path).2 path = deleteField data path := by
  cases split : splitPath path with
  | error e => simp [deleteField, editField, split] at edited
  | ok p =>
    obtain ⟨outcome, left⟩ := editField_eq split none data
    have fine := outcome.1 edited
    have again := JSONRecord.edit_again none fine
    have same := JSONRecord.edit_same again (JSONRecord.get_edit fine (splitPath_ne_nil split))
    simp [deleteField, editField, split, fine, again, same]

/-- A set field is read back, a deleted one is absent and deleting it again changes nothing, and
fields beside it keep their values. Setting fails exactly if something other than an object is above
the field, and what fails changes nothing. -/
theorem field_laws (data : JSONRecord ν) (path other : Text) {p q : List Text}
    (well : splitPath path = .ok p)
    (mem' : splitPath other = .ok q) (value : Value ν) :
    ((setField data path value).1 = none → getField (setField data path value).2 path = some value ∧
      (¬ p <+: q → ¬ q <+: p → getField (setField data path value).2 other = getField data other)) ∧
    ((deleteField data path).1 = none → getField (deleteField data path).2 path = none ∧
      (¬ p <+: q → ¬ q <+: p → getField (deleteField data path).2 other = getField data other) ∧
      deleteField (deleteField data path).2 path = deleteField data path) ∧
    ((setField data path value).1 ≠ none ↔ ∃ front back held, p = front ++ back ∧ back ≠ [] ∧
      data.get front = some held ∧ held.asObject = none) ∧
    ((setField data path value).1 ≠ none → (setField data path value).2 = data) ∧
    ((deleteField data path).1 ≠ none → (deleteField data path).2 = data) := by
  have named := splitPath_ne_nil well
  obtain ⟨sets, set⟩ := editField_eq well (some value) data
  obtain ⟨deletes, deleted⟩ := editField_eq well none data
  simp only [getField_eq well, getField_eq mem']
  refine ⟨fun done => ?_, fun done => ⟨?_, ?_, editField_again done⟩, ?_, editField_failed,
    editField_failed⟩
  · rw [setField, set]
    exact ⟨JSONRecord.get_edit (sets.1 done) named, JSONRecord.get_edit_apart⟩
  · rw [deleteField, deleted]
    exact JSONRecord.get_edit (deletes.1 done) named
  · rw [deleteField, deleted]
    exact JSONRecord.get_edit_apart
  · rw [← JSONRecord.edit_failed_iff]
    exact not_congr sets

/-- A record `a.b` may be set in. -/
def nested : JSONRecord Nat := fun s => if s = ['a'] then some (.object JSONRecord.empty) else none

/-- The field below the object is set. -/
theorem nested_laws :
    getField (setField nested ['a', '.', 'b'] (.number 1)).2 ['a', '.', 'b'] = some (.number 1) :=
  ((field_laws nested ['a', '.', 'b'] ['a', '.', 'c'] (p := [['a'], ['b']]) (q :=
    [['a'], ['c']]) rfl rfl
    (.number 1)).1 rfl).1

end Weibo.Workflow
