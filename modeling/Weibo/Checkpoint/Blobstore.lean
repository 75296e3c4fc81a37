import Mathlib.Data.List.DropRight
import Mathlib.Data.List.Nodup
import Weibo.Lib.Filepath

/-!
# The blob stores

`FileBlobstore` keeps each key in a file below its root, and `S3Blobstore` in an object whose key
has the configured prefix. The file store lists the keys that start with a text; the S3 store cleans
the text first, so that the slash at the end of `savepoints/` is lost.
-/

namespace Weibo.Blobstore

open Filepath List Option Function

inductive Call where
  | put (key : Text)
  | delete (key : Text)

def Call.key : Call → Text
  | .put key => key
  | .delete key => key

def insertObject {α : Type} [DecidableEq α] (o : α) (objects : List α) : List α :=
  if o ∈ objects then objects else o :: objects

def removeObject {α : Type} [DecidableEq α] (o : α) (objects : List α) : List α :=
  objects.filter fun x => x ≠ o

def trimFront (text front : Text) : Text := if front <+: text then text.drop front.length else text

def base (path : Text) : Text :=
  if path = [] then ['.']
  else
    let last := ((elements (path.rdropWhile fun c => c = '/')).getLast?).getD []
    if last = [] then ['/'] else last

/-! ## The file store -/

/-- `FileBlobstore`: the files below its root, by the names that lead to them. -/
abbrev FileBlobstore := List (List Text)

namespace FileBlobstore

/-- `path`: the names below the root, unless the key is refused. What is left after `Clean` of a
rooted path never leads above the root. -/
def path (key : Text) : Option (List Text) :=
  if key = [] then none
  else if up ∈ elements key then none
  else some (names ('/' :: key)).reverse

def call (files : FileBlobstore) : Call → Option FileBlobstore
  | .put key => (path key).map fun p => insertObject p files
  | .delete key => (path key).map fun p => removeObject p files

/-- `List`: every file below the root whose key starts with a text. -/
def list (files : FileBlobstore) (front : Text) : Option (List Text) :=
  some ((files.map fun p => ['/'].intercalate p).filter fun key => front.isPrefixOf key)

def has (files : FileBlobstore) (key : Text) : Bool := (path key).any fun p => p ∈ files

end FileBlobstore

/-! ## The S3 store -/

structure Page where
  contents : List Text
  isTruncated : Option Bool

structure S3Blobstore where
  configured : Text
  objects : List Text := []

namespace S3Blobstore

def objectKey (b : S3Blobstore) (key : Text) : Option Text :=
  if key = [] then none
  else if up ∈ elements key then none
  else
    let clean := trimFront (clean ('/' :: key)) ['/']
    some (if b.configured = [] then clean else b.configured ++ '/' :: clean)

def externalKey (b : S3Blobstore) (objectKey : Text) : Text :=
  if b.configured = [] then objectKey else trimFront (trimFront objectKey b.configured) ['/']

def call (b : S3Blobstore) : Call → Option S3Blobstore
  | .put key => (b.objectKey key).map fun o => { b with objects := insertObject o b.objects }
  | .delete key => (b.objectKey key).map fun o => { b with objects := removeObject o b.objects }

/-- The loop of `List` over the pages that its continuation tokens lead to. -/
def collect (b : S3Blobstore) : List Page → List Text
  | [] => []
  | page :: rest => page.contents.map b.externalKey ++
    if page.isTruncated = some true then b.collect rest else []

/-- `List`, with the pages S3 answers for the start of an object key. -/
def list (b : S3Blobstore) (answers : Text → List Page) (front : Text) : Option (List Text) :=
  (b.objectKey front).map fun o => b.collect (answers o)

def has (b : S3Blobstore) (key : Text) : Bool := (b.objectKey key).any fun o => o ∈ b.objects

end S3Blobstore

/-! ## Savepoints -/

def savepointFront : Text := "savepoints/".toList

def savepointKey (label : Text) : Text := savepointFront ++ label

/-- `ListSavepoints`, from what `List` returns for `SavepointPrefix`. -/
def listSavepoints (keys : Option (List Text)) : Option (List Text) :=
  keys.map fun keys => keys.map base

/-! ## What the stores are for -/

/-- A key without empty, `.` or `..` segments. -/
def Clean (key : Text) : Prop := ∀ x ∈ elements key, Plain x

def apply {α : Type} [DecidableEq α] (code : Text → α) (objects : List α) : Call → List α
  | .put key => insertObject (code key) objects
  | .delete key => removeObject (code key) objects

def stored (calls : List Call) : List Text := calls.foldl (apply id) []

/-- A listing has the wanted keys, each once. -/
def Exactly (result : Option (List Text)) (wanted : Text → Prop) : Prop :=
  ∃ keys, result = some keys ∧ keys.Nodup ∧ ∀ key, key ∈ keys ↔ wanted key

/-- The pages for a prefix hold its objects, and all but the last are truncated. -/
def Lists (objects : List Text) (answers : Text → List Page) : Prop :=
  ∀ front,
    ((answers front).flatMap Page.contents).Perm (objects.filter fun o => front.isPrefixOf o) ∧
    ∀ page ∈ (answers front).dropLast, page.isTruncated = some true

def normal (key : Text) : Text := ['/'].intercalate (names ('/' :: key)).reverse

variable {key front : Text} {b : S3Blobstore}

theorem names_of_clean (clean : Clean key) : (names ('/' :: key)).reverse = elements key := by
  have split : elements ('/' :: key) = [] :: elements key := by
    simp [elements, splitOn_cons_eq_if_modifyHead]
  have root : rooted ('/' :: key) = true := rfl
  rw [names, root, split, foldl_cons]
  have skipped : walk true [] [] = [] := rfl
  rw [skipped, foldl_walk_of_plain clean, append_nil, reverse_reverse]

theorem normal_of_clean (clean : Clean key) : normal key = key := by
  rw [normal, names_of_clean clean]
  exact intercalate_splitOn '/'

theorem ne_nil_of_clean (clean : Clean key) : key ≠ [] := by
  rintro rfl
  exact (clean [] (by simp [elements])).1 rfl

theorem up_not_mem (clean : Clean key) : up ∉ elements key := fun mem => (clean up mem).2.2 rfl

theorem path_of_clean (clean : Clean key) : FileBlobstore.path key = some (elements key) := by
  rw [FileBlobstore.path, if_neg (ne_nil_of_clean clean), if_neg (up_not_mem clean),
    names_of_clean clean]

def S3Blobstore.place (b : S3Blobstore) (key : Text) : Text :=
  if b.configured = [] then key else b.configured ++ '/' :: key

theorem objectKey_eq : b.objectKey key =
    if key = [] ∨ up ∈ elements key then none else some (b.place (normal key)) := by
  have trimmed : trimFront (clean ('/' :: key)) ['/'] = normal key := by
    have root : rooted ('/' :: key) = true := rfl
    simp [clean, root, trimFront, normal]
  rw [S3Blobstore.objectKey]
  by_cases empty : key = []
  · simp [empty]
  · by_cases above : up ∈ elements key
    · simp [above]
    · simp [empty, above, trimmed, S3Blobstore.place]

theorem externalKey_place (b : S3Blobstore) (key : Text) : b.externalKey (b.place key) = key := by
  rw [S3Blobstore.externalKey, S3Blobstore.place]
  split
  · rfl
  · simp [trimFront]

theorem place_injective (b : S3Blobstore) : Injective b.place := by
  intro first second same
  rw [← externalKey_place b first, same, externalKey_place]

theorem isPrefixOf_place (b : S3Blobstore)
    (front key : Text) : b.place front <+: b.place key ↔ front <+: key := by
  rw [S3Blobstore.place, S3Blobstore.place]
  split
  · rfl
  · rw [prefix_append_right_inj, cons_prefix_cons]
    exact and_iff_right rfl

/-! ## The keys of the stores -/

structure Holds {α : Type} (code : Text → α) (keys : List Text) (objects : List α) : Prop where
  clean : ∀ key ∈ keys, Clean key
  once : keys.Nodup
  nodup : objects.Nodup
  mem : ∀ o, o ∈ objects ↔ ∃ key ∈ keys, code key = o

section Holds

variable {α : Type} [DecidableEq α] {code : Text → α} {keys : List Text} {objects : List α}

theorem mem_insertObject {o x : α} : x ∈ insertObject o objects ↔ x = o ∨ x ∈ objects := by
  rw [insertObject]
  split
  · next old => exact ⟨.inr, fun mem => mem.elim (fun same => same ▸ old) id⟩
  · exact mem_cons

theorem mem_removeObject {o x : α} : x ∈ removeObject o objects ↔ x ∈ objects ∧ x ≠ o := by
  rw [removeObject, mem_filter, decide_eq_true_eq]

theorem nodup_insertObject (nodup : objects.Nodup) (o : α) : (insertObject o objects).Nodup := by
  rw [insertObject]
  split
  · exact nodup
  · next new => exact nodup_cons.2 ⟨new, nodup⟩

theorem Holds.put (holds : Holds code keys objects) (clean : Clean key) :
    Holds code (insertObject key keys) (insertObject (code key) objects) := by
  refine ⟨fun k mem => ?_, nodup_insertObject holds.once _, nodup_insertObject holds.nodup _,
    fun o => ?_⟩
  · rcases mem_insertObject.1 mem with rfl | old
    · exact clean
    · exact holds.clean k old
  · rw [mem_insertObject, holds.mem]
    simp [mem_insertObject, eq_comm]

theorem Holds.delete (holds : Holds code keys objects) (injective : Injective code) :
    Holds code (removeObject key keys) (removeObject (code key) objects) := by
  refine ⟨fun k mem => holds.clean k (mem_removeObject.1 mem).1, holds.once.filter _,
    holds.nodup.filter _,
    fun o => ?_⟩
  rw [mem_removeObject, holds.mem]
  constructor
  · rintro ⟨⟨k, mem, rfl⟩, differs⟩
    exact ⟨k, mem_removeObject.2 ⟨mem, fun same => differs (same ▸ rfl)⟩, rfl⟩
  · rintro ⟨k, mem, rfl⟩
    obtain ⟨mem, differs⟩ := mem_removeObject.1 mem
    exact ⟨⟨k, mem, rfl⟩, fun same => differs (injective same)⟩

theorem Holds.calls (injective : Injective code) {calls : List Call}
    (clean : ∀ call ∈ calls, Clean call.key) (holds : Holds code keys objects) :
    Holds code (calls.foldl (apply id) keys) (calls.foldl (apply code) objects) := by
  induction calls generalizing keys objects with
  | nil => exact holds
  | cons call rest ih =>
    have first := clean call mem_cons_self
    refine ih (fun call mem => clean call (.tail _ mem)) ?_
    cases call with
    | put key => exact holds.put first
    | delete key => exact holds.delete injective

theorem holds_stored (injective : Injective code) {calls : List Call}
    (clean : ∀ call ∈ calls, Clean call.key) :
    Holds code (stored calls) (calls.foldl (apply code) []) :=
  Holds.calls injective clean ⟨by simp, .nil, .nil, by simp⟩

end Holds

theorem elements_injective : Injective elements := by
  intro first second same
  have whole := congrArg ['/'].intercalate same
  rwa [elements, elements, intercalate_splitOn, intercalate_splitOn] at whole

theorem file_calls {calls : List Call} (clean : ∀ call ∈ calls, Clean call.key)
    (files : FileBlobstore) :
    calls.foldlM FileBlobstore.call files = some (calls.foldl (apply elements) files) := by
  induction calls generalizing files with
  | nil => rfl
  | cons call rest ih =>
    have first := clean call mem_cons_self
    rw [foldlM_cons, foldl_cons, ← ih fun call mem => clean call (.tail _ mem)]
    cases call with
    | put key | delete key =>
      have path : FileBlobstore.path key = some (elements key) := path_of_clean first
      simp [FileBlobstore.call, path, apply]

theorem s3_calls {calls : List Call} (clean : ∀ call ∈ calls, Clean call.key)
    (b : S3Blobstore) : calls.foldlM S3Blobstore.call
    b = some { b with objects := calls.foldl (apply b.place) b.objects } := by
  induction calls generalizing b with
  | nil => rfl
  | cons call rest ih =>
    have first := clean call mem_cons_self
    have placed : b.objectKey call.key = some (b.place call.key) := by
      rw [objectKey_eq, if_neg (not_or.2 ⟨ne_nil_of_clean first, up_not_mem first⟩),
        normal_of_clean first]
    rw [foldlM_cons, foldl_cons]
    cases call with
    | put key | delete key =>
      change b.objectKey key = some (b.place key) at placed
      simp only [S3Blobstore.call, placed, map_some]
      exact ih (fun call mem => clean call (.tail _ mem)) { b with objects := _ }

/-! ## Listings -/

section Listings

variable {keys : List Text} {files : FileBlobstore} {answers : Text → List Page}

theorem file_lists (holds : Holds elements keys files) (front : Text) :
    Exactly (FileBlobstore.list files front) fun key => key ∈ keys ∧ front <+: key := by
  refine ⟨_, rfl, Nodup.filter _ ?_, fun key => ?_⟩
  · refine holds.nodup.map_on fun p mem q mem' same => ?_
    obtain ⟨k, -, rfl⟩ := (holds.mem p).1 mem
    obtain ⟨l, -, rfl⟩ := (holds.mem q).1 mem'
    rw [elements, elements, intercalate_splitOn, intercalate_splitOn] at same
    rw [same]
  · rw [mem_filter, List.mem_map, List.isPrefixOf_iff_prefix]
    refine and_congr_left fun _ => ⟨?_, fun mem => ?_⟩
    · rintro ⟨p, mem, rfl⟩
      obtain ⟨k, mem, rfl⟩ := (holds.mem p).1 mem
      rwa [elements, intercalate_splitOn]
    · exact ⟨elements key, (holds.mem _).2 ⟨key, mem, rfl⟩, intercalate_splitOn '/'⟩

theorem collect_eq (b : S3Blobstore) {pages : List Page}
    (truncated : ∀ page ∈ pages.dropLast, page.isTruncated = some true) :
    b.collect pages = (pages.flatMap Page.contents).map b.externalKey := by
  induction pages with
  | nil => rfl
  | cons page rest ih =>
    rw [S3Blobstore.collect, flatMap_cons, map_append]
    cases rest with
    | nil => simp [S3Blobstore.collect]
    | cons next rest =>
      rw [if_pos (truncated page (by simp)), ih fun page mem => truncated page (.tail _ mem)]

theorem s3_list (holds : Holds b.place keys b.objects) (lists : Lists b.objects answers)
    (front : Text) :
    (front = [] ∨ up ∈ elements front → b.list answers front = none) ∧
      (¬ (front = [] ∨ up ∈ elements front) →
      Exactly (b.list answers front) fun key => key ∈ keys ∧ normal front <+: key) := by
  rw [S3Blobstore.list, objectKey_eq]
  refine ⟨fun refused => by rw [if_pos refused]; rfl, fun accepted => ?_⟩
  rw [if_neg accepted]
  obtain ⟨perm, truncated⟩ := lists (b.place (normal front))
  refine ⟨b.collect (answers (b.place (normal front))), rfl, ?_, fun key => ?_⟩
  · rw [collect_eq b truncated]
    refine Nodup.map_on (fun o mem q mem' same => ?_) (perm.nodup_iff.2 (holds.nodup.filter _))
    obtain ⟨k, -, rfl⟩ := (holds.mem o).1 (mem_of_mem_filter (perm.mem_iff.1 mem))
    obtain ⟨l, -, rfl⟩ := (holds.mem q).1 (mem_of_mem_filter (perm.mem_iff.1 mem'))
    rw [externalKey_place, externalKey_place] at same
    rw [same]
  · rw [collect_eq b truncated, (perm.map _).mem_iff, List.mem_map]
    constructor
    · rintro ⟨o, mem, rfl⟩
      obtain ⟨present, starts⟩ := mem_filter.1 mem
      obtain ⟨k, inside, rfl⟩ := (holds.mem o).1 present
      rw [externalKey_place]
      exact ⟨inside, (isPrefixOf_place b _ _).1 (List.isPrefixOf_iff_prefix.1 starts)⟩
    · rintro ⟨mem, starts⟩
      exact ⟨b.place key, mem_filter.2 ⟨(holds.mem _).2 ⟨key, mem, rfl⟩,
        List.isPrefixOf_iff_prefix.2 ((isPrefixOf_place b _ _).2 starts)⟩, externalKey_place b key⟩

/-! ## Labels -/

theorem base_of_clean (clean : Clean key) : ∃ before, elements key = before ++ [base key] := by
  obtain ⟨before, last, split⟩ : ∃ before last, elements key = before ++ [last] :=
    ⟨_, _, (dropLast_append_getLast (splitOn_ne_nil '/' key)).symm⟩
  have named : last ≠ [] := (clean last (by rw [split]; simp)).1
  have kept : key.rdropWhile (fun c => c = '/') = key := by
    refine rdropWhile_eq_self_iff.2 fun nonempty slash => ?_
    have ends : elements key = elements key.dropLast ++ [[]] := by
      rw [← dropLast_append_getLast nonempty, of_decide_eq_true slash, elements_slash]
      simp [elements]
    exact (clean [] (by rw [ends]; simp)).1 rfl
  refine ⟨before, ?_⟩
  rw [base, if_neg (ne_nil_of_clean clean), kept, split]
  simp [named]

theorem elements_savepointKey (label : Text) :
    elements (savepointKey label) = "savepoints".toList :: elements label :=
  elements_slash "savepoints".toList label

theorem base_savepointKey {label : Text} (flat : '/' ∉ label) (clean : Clean (savepointKey label)) :
    base (savepointKey label) = label := by
  obtain ⟨before, split⟩ := base_of_clean clean
  have single : elements label = [label] := splitOn_eq_singleton flat
  rw [elements_savepointKey, single] at split
  have last := congrArg List.getLast? split
  simpa using last.symm

def Restorable (has : Text → Bool) (label : Text) : Prop :=
  Clean (savepointKey label) ∧ has (savepointKey label) = true

/-- What starts with `savepoints` is the key of a label without a slash. -/
def Flat (keys : List Text) : Prop :=
  ∀ key ∈ keys, "savepoints".toList <+: key → ∃ label, '/' ∉ label ∧ key = savepointKey label

theorem labels_of_flat (clean : ∀ key ∈ keys, Clean key) (flat : Flat keys) {has : Text → Bool}
    (has_iff : ∀ key, Clean key → (has key = true ↔ key ∈ keys)) {result : Option (List Text)}
    (near : "savepoints".toList <+: front) (far : front <+: savepointFront)
    (lists : Exactly result fun key => key ∈ keys ∧ front <+: key) :
    Exactly (listSavepoints result) (Restorable has) := by
  obtain ⟨listed, rfl, once, mem⟩ := lists
  have label {key : Text} (inside : key ∈ listed) :
    key ∈ keys ∧ ∃ label, '/' ∉ label ∧ key = savepointKey label ∧
      base key = label := by
    obtain ⟨stored, starts⟩ := (mem key).1 inside
    obtain ⟨label, plain, rfl⟩ := flat key stored (near.trans starts)
    exact ⟨stored, label, plain, rfl, base_savepointKey plain (clean _ stored)⟩
  refine ⟨_, rfl, once.map_on fun key inside other mem' same => ?_, fun name => ?_⟩
  · obtain ⟨-, first, -, rfl, is⟩ := label inside
    obtain ⟨-, second, -, rfl, mem'⟩ := label mem'
    rw [← is, ← mem', same]
  · rw [List.mem_map]
    constructor
    · rintro ⟨key, inside, rfl⟩
      obtain ⟨stored, name, -, rfl, is⟩ := label inside
      rw [is]
      exact ⟨clean _ stored, (has_iff _ (clean _ stored)).2 stored⟩
    · rintro ⟨fits, found⟩
      have stored := (has_iff _ fits).1 found
      have inside := (mem _).2 ⟨stored, far.trans (prefix_append _ _)⟩
      obtain ⟨-, other, -, same, is⟩ := label inside
      exact ⟨_, inside, is.trans (append_cancel_left same).symm⟩

theorem flat_of_labels (clean : ∀ key ∈ keys, Clean key) {has : Text → Bool}
    (has_iff : ∀ key, Clean key → (has key = true ↔ key ∈ keys)) {result : Option (List Text)}
    (lists : Exactly result fun key => key ∈ keys ∧ "savepoints".toList <+: key)
    (labels : Exactly (listSavepoints result) (Restorable has)) : Flat keys := by
  obtain ⟨listed, rfl, -, mem⟩ := lists
  obtain ⟨names, same, once, restorable⟩ := labels
  cases same
  intro key stored starts
  have inside := (mem key).2 ⟨stored, starts⟩
  obtain ⟨fits, found⟩ := (restorable _).1 (List.mem_map_of_mem inside)
  obtain ⟨before, split⟩ := base_of_clean (clean key stored)
  have plain : '/' ∉ base key := not_mem_elements (by rw [split]; simp)
  -- The savepoint with this label is listed, too, and under the same label.
  have twin :=
    (mem _).2 ⟨(has_iff _ fits).1 found, prefix_append "savepoints".toList ('/' :: base key)⟩
  exact ⟨base key, plain, inj_on_of_nodup_map once inside twin (base_savepointKey plain fits).symm⟩

theorem file_has (holds : Holds elements keys files) (clean : Clean key) :
    FileBlobstore.has files key = true ↔ key ∈ keys := by
  rw [FileBlobstore.has, path_of_clean clean, any_some, decide_eq_true_eq, holds.mem]
  exact ⟨fun ⟨k, mem, same⟩ => elements_injective same ▸ mem, fun mem => ⟨key, mem, rfl⟩⟩

theorem s3_has (holds : Holds b.place keys b.objects)
    (clean : Clean key) : b.has key = true ↔ key ∈ keys := by
  rw [S3Blobstore.has, objectKey_eq, if_neg (not_or.2 ⟨ne_nil_of_clean clean, up_not_mem clean⟩),
    normal_of_clean clean, any_some, decide_eq_true_eq, holds.mem]
  exact ⟨fun ⟨k, mem, same⟩ => place_injective b same ▸ mem, fun mem => ⟨key, mem, rfl⟩⟩

theorem normal_savepointFront : normal savepointFront = "savepoints".toList := by decide

end Listings

/-- Both stores list exactly the stored keys that start with the text, and exactly the savepoints
that can be restored, if and only if the text is not empty and has no `..` segment, cleaning it
changes nothing for the stored keys, and every stored key that starts with `savepoints` is that of a
label without a slash. -/
theorem listings_agree_iff (configured front : Text) (calls : List Call)
    (clean : ∀ call ∈ calls, Clean call.key) {files : FileBlobstore} {b : S3Blobstore}
    (ranFile : calls.foldlM FileBlobstore.call [] = some files)
    (ranS3 : calls.foldlM S3Blobstore.call { configured } = some b) {answers : Text → List Page}
    (lists : Lists b.objects answers) :
    (Exactly (FileBlobstore.list files front) (fun key => key ∈ stored calls ∧ front <+: key) ∧
      Exactly (b.list answers front) (fun key => key ∈ stored calls ∧ front <+: key) ∧
      Exactly (listSavepoints (FileBlobstore.list files savepointFront))
        (Restorable (FileBlobstore.has files)) ∧
      Exactly (listSavepoints (b.list answers savepointFront)) (Restorable b.has)) ↔
    front ≠ [] ∧ up ∉ elements front ∧
      (∀ key ∈ stored calls, normal front <+: key ↔ front <+: key) ∧
      Flat (stored calls) := by
  obtain rfl := some.inj ((file_calls clean []).symm.trans ranFile)
  obtain rfl := some.inj ((s3_calls clean { configured }).symm.trans ranS3)
  have inFiles : Holds elements (stored calls) _ := holds_stored elements_injective clean
  have inBucket : Holds (S3Blobstore.mk configured []).place (stored calls) _ :=
    holds_stored (place_injective _) clean
  have keysClean := inFiles.clean
  obtain ⟨refused, accepted⟩ := s3_list inBucket lists front
  have savepoints := (s3_list inBucket lists savepointFront).2 (by decide)
  rw [normal_savepointFront] at savepoints
  constructor
  · rintro ⟨-, listed, -, labels⟩
    have fine : ¬ (front = [] ∨ up ∈ elements front) := by
      intro bad
      obtain ⟨keys, returned, -⟩ := listed
      cases (refused bad).symm.trans returned
    obtain ⟨nonempty, below⟩ := not_or.1 fine
    refine ⟨nonempty, below, fun key mem => ?_,
      flat_of_labels keysClean (fun _ => s3_has inBucket) savepoints labels⟩
    obtain ⟨keys, returned, -, starts⟩ := listed
    obtain ⟨others, mem', -, cleaned⟩ := accepted fine
    obtain rfl := some.inj (returned.symm.trans mem')
    exact ⟨fun is => ((starts key).1 ((cleaned key).2 ⟨mem, is⟩)).2,
      fun is => ((cleaned key).1 ((starts key).2 ⟨mem, is⟩)).2⟩
  · rintro ⟨nonempty, below, same, flat⟩
    obtain ⟨keys, returned, once, mem⟩ := accepted (not_or.2 ⟨nonempty, below⟩)
    refine ⟨file_lists inFiles front, ⟨keys, returned, once, fun key => (mem key).trans ?_⟩, ?_, ?_⟩
    · exact and_congr_right fun inside => same key inside
    · exact labels_of_flat keysClean flat (fun _ => file_has inFiles) (by decide) prefix_rfl
        (file_lists inFiles savepointFront)
    · exact labels_of_flat keysClean flat (fun _ => s3_has inBucket) prefix_rfl
        (by decide) savepoints

def onePage (objects : List Text) (front : Text) : List Page :=
  [⟨objects.filter fun o => front.isPrefixOf o, some false⟩]

theorem onePage_lists (objects : List Text) : Lists objects (onePage objects) :=
  fun front => ⟨by simp [onePage], by simp [onePage]⟩

/-- Of two savepoints and a checkpoint, one savepoint is deleted; both stores list the other. -/
theorem savepoint_listed :
    let calls :=
      [Call.put "savepoints/a".toList, .put "checkpoints/7".toList, .put "savepoints/b".toList,
      .delete "savepoints/a".toList]
    ∃ files b, calls.foldlM FileBlobstore.call [] = some files ∧
      calls.foldlM S3Blobstore.call ⟨"jobs".toList, []⟩ = some b ∧
      Exactly (listSavepoints (FileBlobstore.list files savepointFront))
        (Restorable (FileBlobstore.has files)) ∧
      Exactly (listSavepoints (b.list (onePage b.objects) savepointFront)) (Restorable b.has) := by
  intro calls
  have clean : ∀ call ∈ calls, Clean call.key := by
    simp only [calls, forall_mem_cons, Clean]
    decide
  refine ⟨_, _, rfl, rfl, ((listings_agree_iff "jobs".toList savepointFront calls clean rfl rfl
    (onePage_lists _)).2 ⟨by decide, by decide, by decide, ?_⟩).2.2⟩
  intro key mem front
  have kept : key ∈ ["savepoints/b".toList, "checkpoints/7".toList] := mem
  rcases mem_pair.1 kept with rfl | rfl
  · exact ⟨"b".toList, by decide, rfl⟩
  · exact absurd front (by decide)

/-- Asked for `savepoints/`, the S3 store also lists what is stored under `savepoints-old`. -/
theorem neighbour_listed : ∃ b : S3Blobstore,
    [Call.put "savepoints/a".toList, .put "savepoints-old/b".toList].foldlM S3Blobstore.call
      ⟨[], []⟩ = some b ∧
    Lists b.objects (onePage b.objects) ∧
    b.list (onePage b.objects) savepointFront =
      some ["savepoints-old/b".toList, "savepoints/a".toList] ∧
    ¬ savepointFront <+: "savepoints-old/b".toList :=
  ⟨_, rfl, onePage_lists _, by decide, by decide⟩

end Weibo.Blobstore
