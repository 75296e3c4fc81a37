import Weibo.Types.Record
import Weibo.Workflow.Compare
import Weibo.Workflow.FieldOperators

/-!
# Field operators on arbitrary payloads

The field operators from the bytes of a record on. What a `Decoder` reads from the front of the
bytes is a parameter; of a string it makes text, with U+FFFD for what is none. A decoded `null` is
the nil map, which can be read but not written.
-/

namespace Weibo.Workflow

open Filepath (Text)

variable {ν κ φ : Type}

/-- A part of a string as it is written: a character, raw or escaped, a byte that is not UTF-8, or
an escaped surrogate without its other half. -/
inductive StringPiece
  | char (c : Char)
  | invalid (byte : UInt8)
  | surrogate (unit : UInt16)
  deriving DecidableEq

/-- A string as it is written. -/
abbrev Quoted := List StringPiece

namespace Quoted

/-- `unquote` of `encoding/json`, which replaces what is not text. -/
def text (quoted : Quoted) : Text := quoted.map fun
  | .char c => c
  | _ => '\ufffd'

def Garbled (quoted : Quoted) : Prop := ∃ piece ∈ quoted, ∀ c, piece ≠ .char c

end Quoted

/-- A JSON value as it is written. -/
inductive Json (ν : Type)
  | null
  | bool (b : Bool)
  | number (n : ν)
  | string (quoted : Quoted)
  | array (items : List (Json ν))
  | object (members : List (Quoted × Json ν))

namespace Json

mutual

def value : Json ν → Value ν
  | .null => .null
  | .bool b => .bool b
  | .number n => .number n
  | .string quoted => .string quoted.text
  | .array items => .array (values items)
  | .object members => .object (fields members)

def values : List (Json ν) → List (Value ν)
  | [] => []
  | item :: rest => item.value :: values rest

/-- The members of an object; of a repeated name the last one stays. -/
def fields : List (Quoted × Json ν) → JSONRecord ν
  | [] => .empty
  | (name, member) :: rest => fun s =>
    match fields rest s with
    | some later => some later
    | none => if s = name.text then some member.value else none

end

/-- Some string or name is not text, or some member is not what the decoded object holds under its
name. -/
inductive Discards : Json ν → Prop
  | string {quoted : Quoted} (garbled : quoted.Garbled) : Discards (.string quoted)
  | name {members : List (Quoted × Json ν)} {name : Quoted} {member : Json ν}
      (mem : (name, member) ∈ members)
      (garbled : name.Garbled) : Discards (.object members)
  | here {members : List (Quoted × Json ν)} {name : Quoted} {member : Json ν}
      (mem : (name, member) ∈ members)
      (lost : fields members name.text ≠ some member.value) : Discards (.object members)
  | member {members : List (Quoted × Json ν)} {name : Quoted} {member : Json ν}
      (mem : (name, member) ∈ members)
      (below : Discards member) : Discards (.object members)
  | item {items : List (Json ν)} {item : Json ν} (mem : item ∈ items) (below : Discards item) :
      Discards (.array items)

end Json

/-- `encoding/json` and `bytes.TrimSpace`. -/
structure EncodingJSON (ν : Type) where
  /-- `len(bytes.TrimSpace(data)) == 0`. -/
  isBlank : Bytes → Bool
  isBlank_nil : isBlank [] = true
  decode : Bytes → Option (Json ν × Bytes)
  decode_blank : ∀ data, isBlank data = true → decode data = none
  marshal : Option (JSONRecord ν) → Option Bytes

/-- White space of JSON. -/
def isWhite (data : Bytes) : Bool := data.all fun b => b = 0x20 ∨ b = 0x09 ∨ b = 0x0a ∨ b = 0x0d

/-- A record with its `Parsed` view; a map may be nil. -/
structure ParsedRecord (ν : Type) where
  record : Record
  parsed : Option (Option (JSONRecord ν))

inductive Panic
  | nilMap
  deriving DecidableEq

section Operators

variable (lib : EncodingJSON ν)

def decodeJSONBytes (data : Bytes) : Option (Option (JSONRecord ν)) :=
  if lib.isBlank data then some (some .empty)
  else match lib.decode data with
    | some (.null, _) => some none
    | some (.object members, _) => some (some (Json.fields members))
    | _ => none

def decodeJSON (r : ParsedRecord ν) : Option (Option (JSONRecord ν)) :=
  match r.parsed with
  | some object => some object
  | none => decodeJSONBytes lib r.record.value

def applyMap (r : ParsedRecord ν)
    (transform : Option (JSONRecord ν) → Except Panic (Option (JSONRecord ν))) :
    Except Panic (ParsedRecord ν) :=
  match decodeJSON lib r with
  | none => .ok r
  | some data =>
    match transform data with
    | .error panic => .error panic
    | .ok out =>
      match lib.marshal out with
      | none => .ok r
      | some bytes => .ok ⟨{ r.record with value := bytes }, some out⟩

structure FieldSet (ν : Type) where
  field : Text
  value : Value ν

/-- A round of the loop of `BuildSet`; the error of `SetField` is ignored. -/
def assign (data : Option (JSONRecord ν)) (set : FieldSet ν) :
    Except Panic (Option (JSONRecord ν)) :=
  match splitPath set.field, data with
  | .error _, data => .ok data
  | .ok _, none => .error .nilMap
  | .ok _, some data => .ok (some (setField data set.field set.value).2)

inductive FieldOperator (ν : Type)
  | filter (cfg : FilterConfig ν)
  | selectFields (fields : List Text)
  | renameFields (renames : List FieldRename)
  | setFields (sets : List (FieldSet ν))

namespace FieldOperator

/-- What the workflow validator asks of a configuration. -/
def accepted : FieldOperator ν → Prop
  | .filter cfg => cfg.field ≠ [] ∧ cfg.operator ≠ ""
  | .selectFields fields => fields ≠ []
  | .renameFields renames => renames ≠ []
  | .setFields sets => sets ≠ []

/-- `BuildFilter`, `BuildSelect`, `BuildRename` and `BuildSet` on one record; a nil map reads as an
empty one. -/
def run [LinearOrder φ] (numerals : Numerals ν κ φ) (r : ParsedRecord ν) :
    FieldOperator ν → Except Panic (Option (ParsedRecord ν))
  | .filter cfg =>
    match decodeJSON lib r with
    | none => .ok none
    | some data => .ok (if buildFilter numerals cfg (data.getD .empty) then some r else none)
  | .selectFields fields =>
    (applyMap lib r fun data =>
      .ok (some (Workflow.selectFields (data.getD .empty) fields))).map some
  | .renameFields renames =>
    (applyMap lib r fun data => .ok (data.map (Workflow.renameFields · renames))).map some
  | .setFields sets => (applyMap lib r fun data => sets.foldlM assign data).map some

/-- What is left of a record whose payload is refused. -/
def refused (r : ParsedRecord ν) : FieldOperator ν → Option (ParsedRecord ν)
  | .filter _ => none
  | _ => some r

end FieldOperator

/-- The payload is one object, followed by white space only. -/
def IsObject (data : Bytes) : Prop :=
  ∃ members rest, lib.decode data = some (.object members, rest) ∧ isWhite rest = true

/-- The operators survive a payload: none panics, one that is neither empty nor an object is
refused, and decoding discards nothing of an object. -/
structure Survives [LinearOrder φ] (numerals : Numerals ν κ φ) (data : Bytes) : Prop where
  runs : ∀ op : FieldOperator ν, op.accepted → ∀ r : Record, r.value = data →
    ∃ outcome, op.run lib numerals ⟨r, none⟩ = .ok outcome ∧
      (¬ IsObject lib data → data ≠ [] → outcome = op.refused ⟨r, none⟩)
  keeps : IsObject lib data → ∀ doc rest, lib.decode data = some (doc, rest) → ¬ doc.Discards

/-- A payload that the operators read as it is meant. -/
def Readable (data : Bytes) : Prop :=
  data = [] ∨ lib.isBlank data = false ∧ ∀ doc rest, lib.decode data = some (doc, rest) →
    doc ≠ .null ∧ ∀ members, doc = .object members → isWhite rest = true ∧ ¬ doc.Discards

end Operators

section Survives

variable [LinearOrder φ] {lib : EncodingJSON ν} {numerals : Numerals ν κ φ} {r : ParsedRecord ν}

theorem run_refused (undecoded : decodeJSON lib r = none) (op : FieldOperator ν) :
    op.run lib numerals r = .ok (op.refused r) := by
  cases op <;> simp [FieldOperator.run, FieldOperator.refused, applyMap, undecoded, Except.map]

theorem assign_some (data : JSONRecord ν) (sets : List (FieldSet ν)) :
    ∃ out, sets.foldlM assign (some data) = .ok (some out) := by
  induction sets generalizing data with
  | nil => exact ⟨data, rfl⟩
  | cons set rest ih =>
    cases split : splitPath set.field with
    | error e =>
      obtain ⟨out, done⟩ := ih data
      exact ⟨out, by
        rw [List.foldlM_cons]
        simp only [assign, split]
        exact done⟩
    | ok p =>
      obtain ⟨out, done⟩ := ih (setField data set.field set.value).2
      exact ⟨out, by
        rw [List.foldlM_cons]
        simp only [assign, split]
        exact done⟩

theorem applyMap_ok {transform : Option (JSONRecord ν) → Except Panic (Option (JSONRecord ν))}
    (fine : ∀ data, decodeJSON lib r = some data → ∃ out, transform data = .ok out) :
    ∃ outcome, applyMap lib r transform = .ok outcome := by
  unfold applyMap
  cases decoded : decodeJSON lib r with
  | none => exact ⟨r, rfl⟩
  | some data =>
    obtain ⟨out, done⟩ := fine data decoded
    simp only [done]
    cases lib.marshal out <;> exact ⟨_, rfl⟩

theorem run_ok (numerals : Numerals ν κ φ) (written : decodeJSON lib r ≠ some none)
    (op : FieldOperator ν) : ∃ outcome, op.run lib numerals r = .ok outcome := by
  have mapped {transform : Option (JSONRecord ν) → Except Panic (Option (JSONRecord ν))}
      (fine : ∀ data, ∃ out, transform (some data) = .ok out) :
      ∃ outcome, (applyMap lib r transform).map some = .ok outcome := by
    obtain ⟨outcome, done⟩ := @applyMap_ok _ lib r transform fun data decoded => by
      cases data with
      | none => exact absurd decoded written
      | some data => exact fine data
    exact ⟨some outcome, by simp [done, Except.map]⟩
  cases op with
  | filter cfg =>
    simp only [FieldOperator.run]
    cases decodeJSON lib r <;> exact ⟨_, rfl⟩
  | selectFields fields => exact mapped fun data => ⟨_, rfl⟩
  | renameFields renames => exact mapped fun data => ⟨_, rfl⟩
  | setFields sets =>
    refine mapped fun data => ?_
    obtain ⟨out, done⟩ := assign_some data sets
    exact ⟨_, done⟩

theorem exists_keeping (numerals : Numerals ν κ φ) {data : Option (JSONRecord ν)}
    (decoded : decodeJSON lib r = some data) : ∃ op : FieldOperator ν, op.accepted ∧
    op.run lib numerals r = .ok (some r) ∧ op.refused r = none := by
  have kept (operator : String) (named : operator ≠ "")
      (keeps : buildFilter numerals ⟨['a'], operator, .null⟩ (data.getD .empty) = true) :
      ∃ op : FieldOperator ν,
        op.accepted ∧ op.run lib numerals r = .ok (some r) ∧ op.refused r = none :=
    ⟨.filter ⟨['a'], operator, .null⟩, ⟨by simp, named⟩,
      by simp [FieldOperator.run, decoded, keeps], rfl⟩
  cases found : getField (data.getD .empty) ['a'] with
  | none => exact kept "not_exists" (by decide) (by simp [buildFilter, found]; rfl)
  | some value => exact kept "exists" (by decide) (by simp [buildFilter, found]; rfl)

end Survives

/-- The operators survive exactly the readable payloads. -/
theorem survives_iff [LinearOrder φ] (lib : EncodingJSON ν) (numerals : Numerals ν κ φ)
    (data : Bytes) : Survives lib numerals data ↔ Readable lib data := by
  have decoded (r : Record) (is : r.value = data) :
    decodeJSON lib ⟨r, none⟩ = decodeJSONBytes lib data := by
    rw [← is]
    rfl
  constructor
  · intro survives
    by_cases empty : data = []
    · exact .inl empty
    have only {fields : Option (JSONRecord ν)} (read : decodeJSONBytes lib data = some fields) :
      IsObject lib data := by
      by_contra other
      obtain ⟨op, valid, kept, drops⟩ := exists_keeping numerals
        ((decoded { value := data } rfl).trans read)
      obtain ⟨outcome, ran, refused⟩ := survives.runs op valid { value := data } rfl
      have same := Except.ok.inj (ran.symm.trans kept)
      rw [refused other empty, drops] at same
      cases same
    have filled {doc : Json ν} {rest : Bytes} (read : lib.decode data = some (doc, rest)) :
      lib.isBlank data = false := by
      by_contra blank
      cases (lib.decode_blank data (by simpa using blank)).symm.trans read
    refine .inr ⟨?_, fun doc rest read => ⟨?_, fun members is => ?_⟩⟩
    · by_contra blank
      have blank : lib.isBlank data = true := by simpa using blank
      obtain ⟨members, rest, read, _⟩ :=
        only (show decodeJSONBytes lib data = some (some .empty) by simp [decodeJSONBytes, blank])
      cases blank.symm.trans (filled read)
    · rintro rfl
      have nilMap : decodeJSONBytes lib data = some none := by
        simp [decodeJSONBytes, filled read, read]
      obtain ⟨outcome, ran, _⟩ :=
        survives.runs (.setFields [⟨['a'], .null⟩]) (by simp [FieldOperator.accepted])
        { value := data } rfl
      simp only [FieldOperator.run, applyMap, decoded { value := data } rfl, nilMap] at ran
      cases ran
    · subst is
      have object := only (show decodeJSONBytes lib data = some (some (Json.fields members)) by
        simp [decodeJSONBytes, filled read, read])
      have kept := survives.keeps object _ _ read
      obtain ⟨_, _, again, white⟩ := object
      cases read.symm.trans again
      exact ⟨white, kept⟩
  · rintro (rfl | ⟨filled, readable⟩)
    · refine ⟨fun op _ r is => ?_, fun ⟨members, rest, read, _⟩ => ?_⟩
      · have whole : decodeJSON lib ⟨r, none⟩ ≠ some none := by
          simp [decoded r is, decodeJSONBytes, lib.isBlank_nil]
        obtain ⟨outcome, ran⟩ := run_ok numerals whole op
        exact ⟨outcome, ran, fun _ given => absurd rfl given⟩
      · rw [lib.decode_blank [] lib.isBlank_nil] at read
        cases read
    · refine ⟨fun op _ r is => ?_, fun ⟨members, rest, read, _⟩ doc rest' again => ?_⟩
      · have refuse (undecoded : decodeJSONBytes lib data = none) :
          ∃ outcome, op.run lib numerals ⟨r, none⟩ = .ok outcome ∧
            (¬ IsObject lib data → data ≠ [] → outcome = op.refused ⟨r, none⟩) :=
          ⟨_, run_refused ((decoded r is).trans undecoded) op, fun _ _ => rfl⟩
        cases read : lib.decode data with
        | none => exact refuse (by simp [decodeJSONBytes, filled, read])
        | some found =>
          obtain ⟨doc, rest⟩ := found
          cases doc with
          | null => exact absurd rfl (readable _ _ read).1
          | object members =>
            have whole : decodeJSON lib ⟨r, none⟩ ≠ some none := by
              simp [decoded r is, decodeJSONBytes, filled, read]
            obtain ⟨outcome, ran⟩ := run_ok numerals whole op
            exact ⟨outcome, ran, fun other =>
              absurd ⟨members, rest, read, ((readable _ _ read).2 members rfl).1⟩ other⟩
          | _ => exact refuse (by simp [decodeJSONBytes, filled, read])
      · cases read.symm.trans again
        exact ((readable _ _ read).2 members rfl).2

/-- A decoder that knows one payload. -/
def knowing (written : Bytes) (filled : written ≠ []) (doc : Json Number) :
    EncodingJSON Number where
  isBlank data := data.isEmpty
  isBlank_nil := rfl
  decode data := if data = written then some (doc, []) else none
  decode_blank data blank := by simp [List.isEmpty_iff.1 blank, filled.symm]
  marshal _ := some written

/-- The payload `{"a":1}`. -/
theorem object_survives : Survives (knowing [0x7b, 0x22, 0x61, 0x22, 0x3a, 0x31, 0x7d] (by simp)
    (.object [([.char 'a'], .number (.json ⟨1, true⟩))])) (integers fun _ => [])
    [0x7b, 0x22, 0x61, 0x22, 0x3a, 0x31, 0x7d] := by
  refine (survives_iff _ _ _).2 (.inr ⟨rfl, fun doc rest read => ?_⟩)
  cases read
  refine ⟨by simp, fun members is => ⟨rfl, fun discards => ?_⟩⟩
  cases discards with
  | name mem garbled =>
    obtain ⟨rfl, -⟩ := Prod.mk.inj (List.mem_singleton.1 mem)
    simp [Quoted.Garbled] at garbled
  | here mem lost =>
    obtain ⟨rfl, rfl⟩ := Prod.mk.inj (List.mem_singleton.1 mem)
    exact lost rfl
  | member mem below =>
    obtain ⟨-, rfl⟩ := Prod.mk.inj (List.mem_singleton.1 mem)
    cases below

/-- `null` with `setFields`, and an object of which decoding keeps another string. -/
theorem null_panics :
    (FieldOperator.setFields [⟨['a'], Value.null⟩] : FieldOperator Number).accepted ∧
    (FieldOperator.setFields [⟨['a'], Value.null⟩]).run
      (knowing [0x6e, 0x75, 0x6c, 0x6c] (by simp) .null) (integers fun _ => [])
      ⟨{ value := [0x6e, 0x75, 0x6c, 0x6c] }, none⟩ = .error .nilMap ∧
    (Json.object [([.char 'a'], .string [.invalid 0xff])] : Json Number).Discards :=
  ⟨List.cons_ne_nil _ _, rfl,
    .member (List.mem_singleton_self _) (.string ⟨_, List.mem_singleton_self _, nofun⟩)⟩

end Weibo.Workflow
