import Mathlib.Data.List.Pairwise
import Mathlib.Data.List.Sort
import Weibo.Lib.Filepath
import Weibo.Types.Record

/-!
# Archives of checkpoints

`ArchiveCheckpoint` writes the record of a checkpoint and the files below its state directories into
a tar stream; `ExtractCheckpoint` writes them into another storage. A place lists names, the
innermost first. Temporary files, empty directories and what a failed call leaves are left out.
-/

namespace Weibo.Archive

open Filepath List

/-! ## Files -/

def Apart (a b : List Text) : Prop := ¬ a <:+ b ∧ ¬ b <:+ a

instance (a b : List Text) : Decidable (Apart a b) := inferInstanceAs (Decidable (_ ∧ _))

structure Files (β : Type) where
  entries : List (List Text × β)
  apart : entries.Pairwise fun a b => Apart a.1 b.1

namespace Files

variable {β : Type} (files : Files β)

def read (place : List Text) :
    Option β := (files.entries.find? fun file => file.1 = place).map Prod.snd

def Exists (place : List Text) : Prop := ∃ file ∈ files.entries, place <:+ file.1

def Fits (place : List Text) : Prop := ∀ file ∈ files.entries, file.1 ≠ place → Apart file.1 place

instance (place : List Text) : Decidable (files.Exists place) :=
  inferInstanceAs (Decidable (∃ file ∈ files.entries, place <:+ file.1))

instance (place : List Text) : Decidable (files.Fits place) :=
  inferInstanceAs (Decidable (∀ file ∈ files.entries, file.1 ≠ place → Apart file.1 place))

theorem apart_write {files : Files β} {place : List Text} (fits : files.Fits place) (content : β) :
    (files.entries.filter (fun file => file.1 ≠ place) ++ [(place, content)]).Pairwise
      fun a b => Apart a.1 b.1 := by
  refine pairwise_append.2 ⟨files.apart.filter _, pairwise_singleton _ _, ?_⟩
  intro file mem last single
  obtain rfl := mem_singleton.1 single
  obtain ⟨stored, differs⟩ := mem_filter.1 mem
  exact fits file stored (by simpa using differs)

/-- `os.MkdirAll` and `os.OpenFile` with the content. -/
def write (place : List Text) (content : β) : Option (Files β) :=
  if fits : files.Fits place then
    some ⟨files.entries.filter (fun file => file.1 ≠ place) ++ [(place, content)],
      apart_write fits content⟩
  else none

/-- `os.Remove`, which does not remove a directory with files. -/
def remove (place : List Text) : Option (Files β) :=
  if ∃ file ∈ files.entries, file.1 ≠ place ∧ place <:+ file.1 then none
  else some ⟨files.entries.filter fun file => file.1 ≠ place, files.apart.filter _⟩

def removeAll (place : List Text) : Files β :=
  ⟨files.entries.filter fun file => ¬ place <:+ file.1, files.apart.filter _⟩

end Files

/-! ## The storage -/

/-- `Status`; any text may stand in a record. -/
inductive Status
  | prepared
  | completed
  | unset
  | other (text : Text)
  deriving DecidableEq

/-- `CheckpointData`; a map is the list of its entries. -/
structure CheckpointData where
  id : Text
  timestamp : Time
  operators : List (Text × Text)
  source : List (Text × Text)
  status : Status
  txnID : Text
  stateDirs : List (Text × Text)
  deriving DecidableEq

def CheckpointData.completed (data : CheckpointData) : Bool :=
  data.status = .completed ∨ data.status = .unset

/-- The libraries, with what is assumed of them; `β` are the byte slices. -/
structure Library (β : Type) where
  marshal : CheckpointData → β
  unmarshal : β → Option CheckpointData
  bytes : Text → β
  string : β → Text
  isSpace : Char → Bool
  parseInt : Text → Int
  unmarshal_marshal : ∀ data, unmarshal (marshal data) = some data
  string_bytes : ∀ text, string (bytes text) = text

namespace Library

variable {β : Type} (lib : Library β)

def trimSpace (text : Text) : Text :=
  ((text.dropWhile lib.isSpace).reverse.dropWhile lib.isSpace).reverse

def checkpointSequence (id : Text) : Int := lib.parseInt ((id.splitOn '-').getLastD [])

def less (a b : CheckpointData) : Bool :=
  if a.timestamp = b.timestamp then lib.checkpointSequence a.id < lib.checkpointSequence b.id
  else a.timestamp < b.timestamp

end Library

def checkpointPrefix : Text := ['c', 'h', 'e', 'c', 'k', 'p', 'o', 'i', 'n', 't', '-']

def jsonSuffix : Text := ['.', 'j', 's', 'o', 'n']

def recordName (id : Text) : Text := checkpointPrefix ++ id ++ jsonSuffix

def stateName (id : Text) : Text := checkpointPrefix ++ id ++ ['.', 's', 't', 'a', 't', 'e']

def latestName : Text := ['l', 'a', 't', 'e', 's', 't'] ++ jsonSuffix

def latestCompletedName : Text :=
  ['l', 'a', 't', 'e', 's', 't', '-', 'c', 'o', 'm', 'p', 'l', 'e', 't', 'e', 'd'] ++ jsonSuffix

inductive StorageError
  | unmarshal (id : Text)
  | syncStateDir (path : Text)
  | write (path : Text)
  | remove (path : Text)

structure FileStorage where
  dir : Text
  named : dir ≠ []
  cwd : List Text
  retainCompleted : Nat
  retains : 1 ≤ retainCompleted

namespace FileStorage

variable {β : Type} (fs : FileStorage) (lib : Library β) (files : Files β)

def place (path : Text) : List Text := locate fs.cwd path

def stateDir (id : Text) : Text := join [fs.dir, stateName id]

/-- A directory is there that holds files, or that `os.MkdirAll` made for the storage. -/
def HasParent (path : Text) : Prop :=
  files.Exists (fs.place path).tail ∨ (fs.place path).tail <:+ fs.place fs.dir ∨
    (fs.place path).tail <:+ fs.cwd

instance (path : Text) : Decidable (fs.HasParent files path) :=
  inferInstanceAs (Decidable (_ ∨ _ ∨ _))

/-- Unlike `os.MkdirAll`, `os.OpenFile` makes no directory. -/
def writeFileSync (path : Text) (content : β) : Except StorageError (Files β) :=
  if fs.HasParent files path then
    match files.write (fs.place path) content with
    | some files => .ok files
    | none => .error (.write path)
  else .error (.write path)

def loadSpecific (id : Text) : Except StorageError (Option CheckpointData) :=
  match files.read (fs.place (join [fs.dir, recordName id])) with
  | none => .ok none
  | some content =>
    match lib.unmarshal content with
    | none => .error (.unmarshal id)
    | some data => .ok (some data)

/-- What `scanLocked` makes of a file: a record with an id, if the name is that of a record file. -/
def parse (file : List Text × β) : Option CheckpointData :=
  match file.1 with
  | [] => none
  | name :: outer =>
    if outer = fs.place fs.dir ∧ checkpointPrefix <+: name ∧ jsonSuffix <:+ name then
      (lib.unmarshal file.2).filter fun data => data.id ≠ []
    else none

/-- `scanLocked`: the records, the newest last. -/
def scan : List CheckpointData :=
  (files.entries.filterMap (fs.parse lib)).insertionSort fun a b => lib.less b a = false

def usable (completedOnly : Bool) (data : CheckpointData) : Bool := !completedOnly || data.completed

def pointed (name : Text) (completedOnly : Bool) : Option CheckpointData :=
  match files.read (fs.place (join [fs.dir, name])) with
  | none => none
  | some content =>
    match fs.loadSpecific lib files (lib.trimSpace (lib.string content)) with
    | .ok (some data) => if usable completedOnly data then some data else none
    | _ => none

/-- `loadPointerLocked`: the checkpoint that the pointer file names, or else the newest one, to
which the file is then set. -/
def loadPointer (name : Text) (completedOnly : Bool) :
    Except StorageError (Option CheckpointData × Files β) :=
  match fs.pointed lib files name completedOnly with
  | some data => .ok (some data, files)
  | none =>
    match (fs.scan lib files).reverse.find? (usable completedOnly) with
    | none => .ok (none, files)
    | some data => do
      let files ← fs.writeFileSync files (join [fs.dir, name]) (lib.bytes data.id)
      .ok (some data, files)

def loadLatestCompleted : Except StorageError (Option CheckpointData × Files β) :=
  fs.loadPointer lib files latestCompletedName true

def discard (victim : CheckpointData) : Except StorageError (Files β) :=
  match files.remove (fs.place (join [fs.dir, recordName victim.id])) with
  | none => .error (.remove (join [fs.dir, recordName victim.id]))
  | some files => .ok (files.removeAll (fs.place (fs.stateDir victim.id)))

def enforceRetention : Except StorageError (Files β) :=
  let completed := (fs.scan lib files).filter CheckpointData.completed
  (completed.take (completed.length - fs.retainCompleted)).foldlM
    (fun files => fs.discard files) files

def saveLocked (data : CheckpointData) : Except StorageError (Files β) :=
  let data := if data.status = .unset then { data with status := .completed } else data
  match data.stateDirs.find? fun owner =>
    ¬ files.Exists (fs.place (join [fs.stateDir data.id, owner.2])) with
  | some owner => .error (.syncStateDir owner.2)
  | none => do
    let files ← fs.writeFileSync files (join [fs.dir, recordName data.id]) (lib.marshal data)
    let files ← fs.writeFileSync files (join [fs.dir, latestName]) (lib.bytes data.id)
    let files ←
      if data.status = .completed then
        fs.writeFileSync files (join [fs.dir, latestCompletedName]) (lib.bytes data.id)
      else .ok files
    fs.enforceRetention lib files

end FileStorage

/-! ## Archives -/

structure Entry (β : Type) where
  name : Text
  body : β

structure Tar (β : Type) where
  entries : List (Entry β)
  damaged : Bool

def archiveMetaName : Text := ['c', 'h', 'e', 'c', 'k', 'p', 'o', 'i', 'n', 't'] ++ jsonSuffix

def archiveStateRoot : Text := ['s', 't', 'a', 't', 'e', '/']

inductive ArchiveError
  | load (error : StorageError)
  | missing (id : Text)

inductive ExtractError
  | tar
  | extractMeta
  | stateFileFirst
  | escapes (name : Text)
  | write (path : Text)
  | missing
  | save (error : StorageError)

namespace FileStorage

variable {β : Type} (fs : FileStorage) (lib : Library β) (files : Files β)

def tarEntry (stateRoot : List Text) (file : List Text × β) : Entry β :=
  ⟨archiveStateRoot ++ rel stateRoot file.1, file.2⟩

/-- `walkIntoTar`: an entry for every file at or below `base`. -/
def walkIntoTar (stateRoot base : Text) : List (Entry β) :=
  (files.entries.filter fun file => fs.place base <:+ file.1).map (tarEntry (fs.place stateRoot))

def archiveCheckpoint (id : Text) : Except ArchiveError (Tar β) :=
  match fs.loadSpecific lib files id with
  | .error error => .error (.load error)
  | .ok none => .error (.missing id)
  | .ok (some data) =>
    .ok ⟨⟨archiveMetaName, lib.marshal data⟩ :: data.stateDirs.flatMap fun owner =>
      fs.walkIntoTar files (fs.stateDir id) (join [fs.stateDir id, owner.2]), false⟩

/-- One round of the loop in `ExtractCheckpoint`. -/
def extractEntry (state : Option CheckpointData × Files β) (entry : Entry β) :
    Except ExtractError (Option CheckpointData × Files β) :=
  if entry.name = archiveMetaName then
    match lib.unmarshal entry.body with
    | none => .error .extractMeta
    | some data => .ok (some data, state.2)
  else if archiveStateRoot <+: entry.name then
    match state.1 with
    | none => .error .stateFileFirst
    | some data =>
      let stateDir := fs.stateDir data.id
      let dest := join [stateDir, entry.name.drop archiveStateRoot.length]
      if clean stateDir ++ ['/'] <+: clean dest then
        match state.2.write (fs.place dest) entry.body with
        | none => .error (.write dest)
        | some files => .ok (some data, files)
      else .error (.escapes entry.name)
  else .ok state

/-- `ExtractCheckpoint`, which reads the archive into the files of the storage. -/
def extractCheckpoint (archive : Tar β) : Except ExtractError (Text × Files β) := do
  let state ← archive.entries.foldlM (fs.extractEntry lib) (none, files)
  if archive.damaged then .error .tar
  else
    match state.1 with
    | none => .error .missing
    | some data =>
      match fs.saveLocked lib state.2 { data with status := .completed } with
      | .error error => .error (.save error)
      | .ok files => .ok (data.id, files)

end FileStorage

/-! ## Places -/

variable {β : Type} {a b outer : List Text}

theorem append_suffix_append : a ++ outer <:+ b ++ outer ↔ a <:+ b := by
  constructor
  · rintro ⟨front, same⟩
    exact ⟨front, by rwa [← append_assoc, append_cancel_right_eq] at same⟩
  · rintro ⟨front, rfl⟩
    exact ⟨front, by simp⟩

theorem apart_append : Apart (a ++ outer) (b ++ outer) ↔ Apart a b := by
  simp only [Apart, append_suffix_append]

theorem Apart.symm (apart : Apart a b) : Apart b a := ⟨apart.2, apart.1⟩

theorem Apart.below (apart : Apart a outer) (inner : List Text) : Apart a (inner ++ outer) := by
  refine ⟨fun above => ?_, fun below => apart.2 ((suffix_append inner outer).trans below)⟩
  rcases suffix_or_suffix_of_suffix above (suffix_append inner outer) with within | within
  · exact apart.1 within
  · exact apart.2 within

theorem Apart.ne (apart : Apart a b) : a ≠ b := by
  rintro rfl
  exact apart.1 (suffix_refl a)

theorem apart_names {name other : Text} (differs : name ≠ other) (inner : List Text) :
    Apart (inner ++ name :: outer) (other :: outer) := by
  have rebased : Apart (inner ++ [name]) [other] := by
    constructor
    · rintro ⟨front, same⟩
      have last := congrArg List.getLast? same
      simp at last
      exact differs last
    · rintro ⟨front, same⟩
      have last := congrArg List.getLast? same
      simp at last
      exact differs last.symm
  simpa using apart_append.2 rebased

namespace Files

variable {files after : Files β} {place : List Text} {content : β} {file other : List Text × β}

theorem eq_of_suffix (mem : file ∈ files.entries) (mem' : other ∈ files.entries)
    (above : file.1 <:+ other.1) : file = other := by
  by_contra differs
  have symmetric : Std.Symm fun a b : List Text × β => Apart a.1 b.1 := ⟨fun _ _ => Apart.symm⟩
  exact (files.apart.forall mem mem' differs).1 above

theorem read_of_mem (mem : (place, content) ∈ files.entries) : files.read place = some content := by
  cases found : files.entries.find? fun file => file.1 = place with
  | none => exact absurd (List.find?_eq_none.1 found _ mem) (by simp)
  | some file =>
    have same : file.1 = place := by simpa using List.find?_some found
    have one := eq_of_suffix (mem_of_find?_eq_some found) mem (by simp [same])
    simp [read, found, one]

theorem read_eq_none
    (absent : ∀ file ∈ files.entries, file.1 ≠ place) : files.read place = none := by
  simpa [read] using fun place' content mem => absent (place', content) mem

theorem mem_write (written : files.write place content = some after) :
    file ∈ after.entries ↔ (file ∈ files.entries ∧ file.1 ≠ place) ∨ file = (place, content) := by
  unfold write at written
  split at written
  · cases written
    simp
  · cases written

theorem exists_write (fits : files.Fits place)
    (content : β) : ∃ after, files.write place content = some after :=
  ⟨_, dif_pos fits⟩

end Files

/-! ## Copies of state files -/

/-- Files of one machine that lie in `root` have been copied into `target` on another one, which had
the files of `into`. -/
def Copied (into now : Files β) (root target : List Text) (moved : List (List Text × β)) : Prop :=
  ∀ place content, (place, content) ∈ now.entries ↔ (place, content) ∈ into.entries ∨
    ∃ inner, place = inner ++ target ∧ (inner ++ root, content) ∈ moved

section Copied

variable {files into now next : Files β} {root target inner : List Text} {moved :
    List (List Text × β)}
  {content : β}

theorem Copied.fits (copied : Copied into now root target moved)
    (own : ∀ file ∈ moved, file ∈ files.entries) (mem : (inner ++ root, content) ∈ files.entries)
    (empty : ∀ file ∈ into.entries, Apart file.1 target) : now.Fits (inner ++ target) := by
  rintro ⟨place, stored⟩ here differs
  rcases (copied place stored).1 here with old | ⟨other, rfl, there⟩
  · exact (empty _ old).below inner
  · refine apart_append.2 ((@apart_append other inner root).1 ?_)
    have another : (other ++ root, stored) ≠ (inner ++ root, content) := fun same =>
      differs (congrArg (· ++ target) (append_cancel_right (congrArg Prod.fst same)))
    exact ⟨fun above => another (Files.eq_of_suffix (own _ there) mem above),
      fun above => another (Files.eq_of_suffix mem (own _ there) above).symm⟩

theorem Copied.write (copied : Copied into now root target moved)
    (own : ∀ file ∈ moved, file ∈ files.entries) (mem : (inner ++ root, content) ∈ files.entries)
    (empty : ∀ file ∈ into.entries, Apart file.1 target)
    (written : now.write (inner ++ target) content = some next) : Copied into next root target
    (moved ++ [(inner ++ root, content)]) := by
  intro place stored
  rw [Files.mem_write written, copied place stored]
  constructor
  · rintro (⟨old | ⟨other, rfl, there⟩, -⟩ | same)
    · exact .inl old
    · exact .inr ⟨other, rfl, mem_append_left _ there⟩
    · obtain ⟨rfl, rfl⟩ := Prod.mk.inj same
      exact .inr ⟨inner, rfl, by simp⟩
  · rintro (old | ⟨other, rfl, there⟩)
    · exact .inl ⟨.inl old, ((empty _ old).below inner).ne⟩
    · by_cases same : other = inner
      · -- The place is taken again, by a copy of the same file.
        subst same
        have stands : (other ++ root, stored) ∈ files.entries := by
          rcases mem_append.1 there with before | last
          · exact own _ before
          · rwa [mem_singleton.1 last]
        have one := Files.eq_of_suffix stands mem (suffix_refl _)
        exact .inr (by rw [(Prod.mk.inj one).2])
      · have before : (other ++ root, stored) ∈ moved := by
          rcases mem_append.1 there with before | last
          · exact before
          · exact absurd (append_cancel_right (Prod.mk.inj (mem_singleton.1 last)).1) same
        exact .inl ⟨.inr ⟨other, rfl, before⟩, fun equal => same (append_cancel_right equal)⟩

end Copied

namespace FileStorage

variable {fs src dst : FileStorage} {lib : Library β} {files into now : Files β} {id : Text}

theorem long_append {front back : Text} (long : 3 ≤ back.length) : 3 ≤ (front ++ back).length := by
  rw [length_append]
  omega

theorem place_join (fs : FileStorage) {name : Text} (flat : '/' ∉ name) (long : 3 ≤ name.length) :
    fs.place (join [fs.dir, name]) = name :: fs.place fs.dir := by
  have there := locate_join_append fs.cwd fs.dir flat long (not_mem_nil (a := '/'))
  rwa [append_nil, append_nil] at there

theorem flat_recordName (flat : '/' ∉ id) : '/' ∉ recordName id := by
  simp [recordName, checkpointPrefix, jsonSuffix, flat]

theorem flat_stateName (flat : '/' ∉ id) : '/' ∉ stateName id := by
  simp [stateName, checkpointPrefix, flat]

theorem place_record (fs : FileStorage) (flat : '/' ∉ id) :
    fs.place (join [fs.dir, recordName id]) = recordName id :: fs.place fs.dir :=
  fs.place_join (flat_recordName flat) (long_append (by decide))

theorem place_stateDir (fs : FileStorage) (flat : '/' ∉ id) :
    fs.place (fs.stateDir id) = stateName id :: fs.place fs.dir :=
  fs.place_join (flat_stateName flat) (long_append (by decide))

theorem place_latest (fs : FileStorage) :
    fs.place (join [fs.dir, latestName]) = latestName :: fs.place fs.dir :=
  fs.place_join (by decide) (by decide)

theorem place_latestCompleted (fs : FileStorage) :
    fs.place (join [fs.dir, latestCompletedName]) = latestCompletedName :: fs.place fs.dir :=
  fs.place_join (by decide) (by decide)

theorem writeFileSync_of_write {fs : FileStorage} {files after : Files β} {name : Text}
    {content : β} (here : fs.place (join [fs.dir, name]) = name :: fs.place fs.dir)
    (writes : files.write (name :: fs.place fs.dir) content = some after) : fs.writeFileSync files
    (join [fs.dir, name]) content = .ok after := by
  have parent : fs.HasParent files (join [fs.dir, name]) :=
    .inr (.inl (by rw [here]; exact suffix_rfl))
  rw [writeFileSync, if_pos parent, here, writes]

theorem stateDir_eq (fs : FileStorage) (id : Text) :
    fs.stateDir id = clean (fs.dir ++ '/' :: stateName id) :=
  join_of_ne_nil fs.named _

theorem names_stateDir (fs : FileStorage) (flat : '/' ∉ id) :
    names (fs.dir ++ '/' :: stateName id) ≠ [] := by
  refine names_ne_nil ?_
  rw [← locate_clean, ← stateDir_eq]
  exact (place_stateDir { fs with cwd := [] } flat).trans_ne (by simp)

theorem place_owner (fs : FileStorage) (id : Text) {path : Text} (inside : Inside path) :
    fs.place (join [fs.stateDir id, path]) = names path ++ fs.place (fs.stateDir id) := by
  refine inside.locate_join ?_ fs.cwd
  rw [stateDir_eq]
  exact clean_ne_nil _

variable {data : CheckpointData}

theorem extractEntry_tarEntry (dst : FileStorage) (lib : Library β) (now : Files β)
    (flat : '/' ∉ data.id) {inner root : List Text} (named : ∀ x ∈ inner, '/' ∉ x ∧ Plain x)
    (nonempty : inner ≠ []) (content : β) {next : Files β} (written : now.write
    (inner ++ dst.place (dst.stateDir data.id)) content = some next) : dst.extractEntry lib
    (some data, now) (tarEntry root (inner ++ root, content)) = .ok (some data, next) := by
  have apartNames : archiveStateRoot ++ rel root (inner ++ root) ≠ archiveMetaName := by
    simp [archiveStateRoot, archiveMetaName]
  have has := dst.names_stateDir flat
  have stays := clean_rel named nonempty has root
  have joined : join [dst.stateDir data.id, rel root (inner ++ root)] =
      dst.stateDir data.id ++ '/' :: rel root (inner ++ root) := by
    rw [stateDir_eq, join_of_ne_nil (clean_ne_nil _), stays]
  have guard : clean (dst.stateDir data.id) ++ ['/'] <+:
      clean (dst.stateDir data.id ++ '/' :: rel root (inner ++ root)) := by
    rw [stateDir_eq, stays, clean_clean]
    exact ⟨rel root (inner ++ root), by simp⟩
  have there : dst.place (dst.stateDir data.id ++ '/' :: rel root (inner ++ root)) =
      inner ++ dst.place (dst.stateDir data.id) := by
    refine locate_rel named nonempty ?_ dst.cwd root
    rw [stateDir_eq]
    exact clean_ne_nil _
  simp only [extractEntry, tarEntry, if_neg apartNames, prefix_append, if_true, drop_left, joined,
    guard, there, written]

theorem foldlM_extractEntry (dst : FileStorage) (lib : Library β) (flat : '/' ∉ data.id)
    {root : List Text} (named : ∀ file ∈ files.entries, ∀ x ∈ file.1, '/' ∉ x ∧ Plain x)
    (empty : ∀ file ∈ into.entries, Apart file.1 (dst.place (dst.stateDir data.id)))
    {todo moved : List (List Text × β)}
      (copied : Copied into now root (dst.place (dst.stateDir data.id)) moved)
    (own : ∀ file ∈ moved, file ∈ files.entries)
    (left : ∀ file ∈ todo, file ∈ files.entries ∧ ∃ inner, inner ≠ [] ∧ file.1 = inner ++ root) :
    ∃ next, (todo.map (tarEntry root)).foldlM (dst.extractEntry lib) (some data, now) =
      .ok (some data, next) ∧
      Copied into next root (dst.place (dst.stateDir data.id)) (moved ++ todo) := by
  induction todo generalizing now moved with
  | nil => exact ⟨now, rfl, by rwa [append_nil]⟩
  | cons file todo ih =>
    obtain ⟨place, content⟩ := file
    obtain ⟨mem, inner, nonempty, rfl⟩ := left _ mem_cons_self
    obtain ⟨next, written⟩ := Files.exists_write (copied.fits own mem empty) content
    have names := fun x inside => named _ mem x (mem_append_left root inside)
    have round : dst.extractEntry lib (some data, now) (tarEntry root (inner ++ root, content)) =
        .ok (some data, next) :=
          extractEntry_tarEntry dst lib now flat names nonempty content written
    have further : ∀ file ∈ moved ++ [(inner ++ root, content)], file ∈ files.entries := by
      intro file before
      rcases mem_append.1 before with before | last
      · exact own file before
      · rwa [mem_singleton.1 last]
    obtain ⟨last, rounds, all⟩ := ih (copied.write own mem empty written) further
      fun file rest => left file (mem_cons_of_mem _ rest)
    refine ⟨last, ?_, by rwa [append_assoc] at all⟩
    rw [map_cons, foldlM_cons, round]
    exact rounds

/-! ## The saved record -/

def Laid (now : Files β) (dir : List Text) (id : Text) : Prop :=
  ∀ file ∈ now.entries, Apart file.1 dir ∨ ∃ inner name, file.1 = inner ++ name :: dir ∧
    (name = stateName id ∨ inner = [] ∧ name ∈ [recordName id, latestName, latestCompletedName])

theorem not_json_stateName (id : Text) : ¬ jsonSuffix <:+ stateName id := by
  rintro ⟨front, same⟩
  have last := congrArg List.getLast? same
  simp [jsonSuffix, stateName] at last

theorem json_of_mem {name : Text} (mem : name ∈ [recordName id, latestName, latestCompletedName]) :
    jsonSuffix <:+ name := by
  simp only [mem_cons, not_mem_nil, or_false] at mem
  rcases mem with rfl | rfl | rfl <;> exact suffix_append _ _

theorem ne_stateName {name : Text} (mem : name ∈ [recordName id, latestName, latestCompletedName]) :
    stateName id ≠ name := fun same => not_json_stateName id (same ▸ json_of_mem mem)

variable {dir : List Text} {name : Text}

theorem Laid.fits (laid : Laid now dir id)
    (mem : name ∈ [recordName id, latestName, latestCompletedName]) : now.Fits (name :: dir) := by
  intro file here differs
  rcases laid file here with out | ⟨inner, other, place, rfl | ⟨rfl, -⟩⟩
  · exact out.below [name]
  · rw [place]
    exact apart_names (ne_stateName mem) inner
  · rw [place] at differs ⊢
    exact apart_names (fun same => differs (by rw [same, nil_append])) []

theorem Laid.write (laid : Laid now dir id)
    (mem : name ∈ [recordName id, latestName, latestCompletedName]) {content : β} {next : Files β}
    (written : now.write (name :: dir) content = some next) : Laid next dir id := by
  intro file here
  rcases (Files.mem_write written).1 here with ⟨old, -⟩ | rfl
  · exact laid file old
  · exact .inr ⟨[], name, rfl, .inr ⟨rfl, mem⟩⟩

variable {file : List Text × β}

theorem Laid.record (laid : Laid now dir id) (here : file ∈ now.entries)
    (place : file.1 = name :: dir) (front : checkpointPrefix <+: name)
    (back : jsonSuffix <:+ name) : name = recordName id := by
  rcases laid file here with out | ⟨inner, other, found, kind⟩
  · exact absurd (place ▸ suffix_append [name] dir) out.2
  · have apartFrom : name = other := by
      by_contra differs
      exact (apart_names (Ne.symm differs) inner).ne (found.symm.trans place)
    subst apartFrom
    rcases kind with rfl | ⟨-, mem⟩
    · exact absurd back (not_json_stateName id)
    · simp only [mem_cons, not_mem_nil, or_false] at mem
      rcases mem with rfl | rfl | rfl
      · rfl
      · exact absurd front (by decide)
      · exact absurd front (by decide)

theorem filterMap_eq_toList {α γ : Type} {list : List α} {f : α → Option γ} {x : α} (mem : x ∈ list)
    (nodup : list.Nodup)
    (only : ∀ a ∈ list, a ≠ x → f a = none) : list.filterMap f = (f x).toList := by
  obtain ⟨front, back, rfl⟩ := append_of_mem mem
  obtain ⟨-, later, apart⟩ := nodup_append.1 nodup
  have before : front.filterMap f = [] := filterMap_eq_nil_iff.2 fun a inside =>
    only a (by simp [inside]) (apart a inside x mem_cons_self)
  have behind : back.filterMap f = [] := filterMap_eq_nil_iff.2 fun a inside =>
    only a (by simp [inside]) fun same => (nodup_cons.1 later).1 (same ▸ inside)
  rw [filterMap_append, filterMap_cons, before, behind]
  cases f x <;> rfl

theorem scan_of_laid (laid : Laid now (fs.place fs.dir) data.id)
    (stored : (recordName data.id :: fs.place fs.dir, lib.marshal data) ∈ now.entries) :
    fs.scan lib now = if data.id = [] then [] else [data] := by
  have nodup : now.entries.Nodup := now.apart.imp fun apart same => apart.1 (by rw [same])
  have found : now.entries.filterMap (fs.parse lib) =
      (fs.parse lib (recordName data.id :: fs.place fs.dir, lib.marshal data)).toList := by
    refine filterMap_eq_toList stored nodup fun file here differs => ?_
    obtain ⟨place, content⟩ := file
    cases place with
    | nil => rfl
    | cons name outer =>
      refine if_neg ?_
      rintro ⟨rfl, front, back⟩
      obtain rfl := laid.record here rfl front back
      exact differs (Files.eq_of_suffix here stored (suffix_refl _))
  have parsed : fs.parse lib (recordName data.id :: fs.place fs.dir, lib.marshal data) =
      if data.id = [] then none else some data := by
    have front : checkpointPrefix <+: recordName data.id :=
      ⟨data.id ++ jsonSuffix, by simp [recordName]⟩
    have back : jsonSuffix <:+ recordName data.id := suffix_append _ _
    simp [parse, front, back, lib.unmarshal_marshal, Option.filter]
  rw [scan, found, parsed]
  split <;> rfl

theorem enforceRetention_of_length
    (few : (fs.scan lib now).length ≤ 1) : fs.enforceRetention lib now = .ok now := by
  have bound : ((fs.scan lib now).filter CheckpointData.completed).length ≤ fs.retainCompleted :=
    (List.length_filter_le _ _).trans (few.trans fs.retains)
  simp only [enforceRetention, Nat.sub_eq_zero_of_le bound, take_zero, foldlM_nil]
  rfl

theorem saveLocked_of_laid (flat : '/' ∉ data.id) (completed : data.status = .completed)
    (laid : Laid now (fs.place fs.dir) data.id)
    (present : ∀ owner ∈ data.stateDirs,
      now.Exists (fs.place (join [fs.stateDir data.id, owner.2]))) :
    ∃ result, fs.saveLocked lib now data = .ok result ∧ Laid result (fs.place fs.dir) data.id ∧
      (recordName data.id :: fs.place fs.dir, lib.marshal data) ∈ result.entries ∧
      (latestCompletedName :: fs.place fs.dir, lib.bytes data.id) ∈ result.entries ∧
      ∀ inner content, (inner ++ stateName data.id :: fs.place fs.dir, content) ∈ result.entries ↔
        (inner ++ stateName data.id :: fs.place fs.dir, content) ∈ now.entries := by
  have record : recordName data.id ∈ [recordName data.id, latestName, latestCompletedName] := by
    simp
  have latest : latestName ∈ [recordName data.id, latestName, latestCompletedName] := by simp
  have latestCompleted :
    latestCompletedName ∈ [recordName data.id, latestName, latestCompletedName] := by
    simp
  obtain ⟨first, writes⟩ := Files.exists_write (laid.fits record) (lib.marshal data)
  have laid' := laid.write record writes
  obtain ⟨second, writes'⟩ := Files.exists_write (laid'.fits latest) (lib.bytes data.id)
  have laid'' := laid'.write latest writes'
  obtain ⟨result, writes''⟩ := Files.exists_write (laid''.fits latestCompleted) (lib.bytes data.id)
  have last := laid''.write latestCompleted writes''
  have stored : (recordName data.id :: fs.place fs.dir, lib.marshal data) ∈ result.entries := by
    have differs : ∀ other ∈ [latestName, latestCompletedName], recordName data.id ≠ other := by
      intro other mem same
      have start := congrArg List.head? same
      revert start
      simp only [mem_cons, not_mem_nil, or_false] at mem
      rcases mem with
        rfl | rfl <;> simp [recordName, checkpointPrefix, latestName, latestCompletedName]
    rw [Files.mem_write writes'', Files.mem_write writes', Files.mem_write writes]
    simp [differs]
  refine ⟨result, ?_, last, stored, (Files.mem_write writes'').2 (.inr rfl),
    fun inner content => ?_⟩
  · have missing : data.stateDirs.find? (fun owner =>
        ¬ now.Exists (fs.place (join [fs.stateDir data.id, owner.2]))) = none :=
      List.find?_eq_none.2 fun owner mem => by simpa using present owner mem
    have few : (fs.scan lib result).length ≤ 1 := by
      rw [scan_of_laid last stored]
      split <;> simp
    simp only [saveLocked, completed, reduceCtorEq, if_false, missing, if_true, bind, Except.bind,
      writeFileSync_of_write (place_record fs flat) writes,
        writeFileSync_of_write fs.place_latest writes',
      writeFileSync_of_write fs.place_latestCompleted writes'']
    exact enforceRetention_of_length few
  · have aside : ∀ name ∈ [recordName data.id, latestName, latestCompletedName],
        inner ++ stateName data.id :: fs.place fs.dir ≠ name :: fs.place fs.dir := fun name mem =>
      (apart_names (ne_stateName mem) inner).ne
    rw [Files.mem_write writes'', Files.mem_write writes', Files.mem_write writes]
    simp [aside _ record, aside _ latest, aside _ latestCompleted]

/-! ## The checkpoint in the other storage -/

theorem loadSpecific_of_mem (flat : '/' ∉ id)
    (stored : (recordName id :: fs.place fs.dir, lib.marshal data) ∈ now.entries) :
    fs.loadSpecific lib now id = .ok (some data) := by
  simp only [loadSpecific, place_record fs flat, Files.read_of_mem stored, lib.unmarshal_marshal]

theorem loadLatestCompleted_of_laid (flat : '/' ∉ data.id)
    (completed : data.status = .completed) (laid : Laid now (fs.place fs.dir) data.id)
    (stored : (recordName data.id :: fs.place fs.dir, lib.marshal data) ∈ now.entries)
    (pointer : (latestCompletedName :: fs.place fs.dir, lib.bytes data.id) ∈ now.entries) :
    ∃ after, fs.loadLatestCompleted lib now = .ok (some data, after) := by
  have good : usable true data = true := by simp [usable, CheckpointData.completed, completed]
  by_cases same : lib.trimSpace data.id = data.id
  · have leads : fs.pointed lib now latestCompletedName true = some data := by
      simp only [pointed, place_latestCompleted, Files.read_of_mem pointer, lib.string_bytes, same,
        loadSpecific_of_mem flat stored, good, if_true]
    exact ⟨now, by simp only [loadLatestCompleted, loadPointer, leads]⟩
  · have trimmed : '/' ∉ lib.trimSpace data.id := by
      intro mem
      have once := (dropWhile_suffix lib.isSpace).subset (mem_reverse.1 mem)
      exact flat ((dropWhile_suffix lib.isSpace).subset (mem_reverse.1 once))
    have missing : now.read (recordName (lib.trimSpace data.id) :: fs.place fs.dir) = none := by
      refine Files.read_eq_none fun file here place => same ?_
      have equal :=
        laid.record here place ⟨lib.trimSpace data.id ++ jsonSuffix, by simp [recordName]⟩
        (suffix_append _ _)
      simpa [recordName] using equal
    have leads : fs.pointed lib now latestCompletedName true = none := by
      simp only [pointed, place_latestCompleted, Files.read_of_mem pointer, lib.string_bytes,
        loadSpecific,
        place_record fs trimmed, missing]
    have named : data.id ≠ [] := fun empty => same (by rw [empty]; rfl)
    have scanned := scan_of_laid laid stored
    rw [if_neg named] at scanned
    have fits : now.Fits (latestCompletedName :: fs.place fs.dir) := laid.fits (by simp)
    obtain ⟨after, writes⟩ := Files.exists_write fits (lib.bytes data.id)
    refine ⟨after, ?_⟩
    simp only [loadLatestCompleted, loadPointer, leads, scanned, reverse_singleton, List.find?_cons,
      good,
      writeFileSync_of_write fs.place_latestCompleted writes, bind, Except.bind]

def stateFiles (fs : FileStorage) (files : Files β) (data : CheckpointData) :
    List (List Text × β) :=
  data.stateDirs.flatMap fun owner =>
    files.entries.filter fun file => fs.place (join [fs.stateDir data.id, owner.2]) <:+ file.1

theorem mem_stateFiles : file ∈ fs.stateFiles files data ↔ file ∈ files.entries ∧
      ∃ owner ∈ data.stateDirs, fs.place (join [fs.stateDir data.id, owner.2]) <:+ file.1 := by
  simp only [stateFiles, mem_flatMap, mem_filter, decide_eq_true_eq]
  tauto

theorem archiveCheckpoint_eq (loaded : fs.loadSpecific lib files data.id = .ok (some data)) :
    fs.archiveCheckpoint lib files data.id = .ok ⟨⟨archiveMetaName, lib.marshal data⟩ ::
      (fs.stateFiles files data).map (tarEntry (fs.place (fs.stateDir data.id))), false⟩ := by
  simp only [archiveCheckpoint, loaded, walkIntoTar, stateFiles, map_flatMap]

def Filled (fs : FileStorage) (files : Files β) (data : CheckpointData) : Prop :=
  ∀ owner ∈ data.stateDirs, ∃ file ∈ files.entries, ∃ name inner,
    file.1 = name :: inner ++ fs.place (join [fs.stateDir data.id, owner.2])

theorem Filled.below (filled : fs.Filled files data)
    (inside : ∀ owner ∈ data.stateDirs, Inside owner.2) (mem : file ∈ fs.stateFiles files data) :
    ∃ inner, inner ≠ [] ∧ file.1 = inner ++ fs.place (fs.stateDir data.id) := by
  obtain ⟨stored, owner, recorded, front, whole⟩ := mem_stateFiles.1 mem
  obtain ⟨other, mem', name, inner, place⟩ := filled owner recorded
  rw [place_owner fs data.id (inside owner recorded)] at whole place
  refine ⟨front ++ names owner.2, fun none => ?_, by rw [← whole, append_assoc]⟩
  -- A file in the place of the state root would have a file below it.
  rw [← append_assoc, none, nil_append] at whole
  have one :=
    Files.eq_of_suffix stored mem' ⟨name :: inner ++ names owner.2, by rw [← whole, place]; simp⟩
  have length := congrArg length (place.symm.trans ((congrArg Prod.fst one.symm).trans whole.symm))
  simp only [cons_append, length_cons, length_append] at length
  omega

/-- The archive round trip: a checkpoint is the same in the other storage, as a completed one. The
state files are those at or below the recorded directories; the other storage has no file, and no
file stands in its way. -/
theorem extract_archive (lib : Library β) (src dst : FileStorage) (files into : Files β)
    (data : CheckpointData) (flat : '/' ∉ data.id)
    (loaded : src.loadSpecific lib files data.id = .ok (some data))
    (named : ∀ file ∈ files.entries, ∀ x ∈ file.1, '/' ∉ x ∧ Plain x)
    (inside : ∀ owner ∈ data.stateDirs, Inside owner.2) (filled : src.Filled files data)
    (empty : ∀ file ∈ into.entries, Apart file.1 (dst.place dst.dir)) :
    ∃ archive result, src.archiveCheckpoint lib files data.id = .ok archive ∧
      dst.extractCheckpoint lib into archive = .ok (data.id, result) ∧
      dst.loadSpecific lib result data.id = .ok (some { data with status := .completed }) ∧
      (∃ after,
        dst.loadLatestCompleted lib result = .ok (some { data with status := .completed }, after)) ∧
      ∀ inner content, (inner ++ dst.place (dst.stateDir data.id), content) ∈ result.entries ↔
        (inner ++ src.place (src.stateDir data.id), content) ∈ files.entries ∧
          ∃ owner ∈ data.stateDirs, src.place (join [src.stateDir data.id, owner.2]) <:+
            inner ++ src.place (src.stateDir data.id) := by
  have target := dst.place_stateDir flat
  have apart : ∀ file ∈ into.entries, Apart file.1 (dst.place (dst.stateDir data.id)) :=
    fun file mem =>
    target ▸ (empty file mem).below [stateName data.id]
  have start :
    Copied into into (src.place (src.stateDir data.id)) (dst.place (dst.stateDir data.id)) [] := by
    simp [Copied]
  obtain ⟨copy, rounds, copied⟩ := foldlM_extractEntry dst lib flat named apart start (by simp)
    fun file mem => ⟨(mem_stateFiles.1 mem).1, filled.below inside mem⟩
  rw [nil_append] at copied
  have laid : Laid copy (dst.place dst.dir) data.id := by
    intro file mem
    rcases (copied file.1 file.2).1 mem with old | ⟨inner, place, -⟩
    · exact .inl (empty _ old)
    · exact .inr ⟨inner, stateName data.id, place.trans (by rw [target]), .inl rfl⟩
  have present :
    ∀ owner ∈ data.stateDirs, copy.Exists (dst.place (join [dst.stateDir data.id, owner.2])) := by
    intro owner recorded
    obtain ⟨file, stored, name, inner, place⟩ := filled owner recorded
    have mem : file ∈ src.stateFiles files data :=
      mem_stateFiles.2 ⟨stored, owner, recorded, name :: inner, place.symm⟩
    rw [place_owner src data.id (inside owner recorded), ← append_assoc] at place
    refine ⟨_, (copied _ file.2).2 (.inr ⟨name :: inner ++ names owner.2, rfl, place ▸ mem⟩), ?_⟩
    rw [place_owner dst data.id (inside owner recorded), append_assoc]
    exact suffix_append _ _
  obtain ⟨result, saves, last, record, pointer, kept⟩ :=
    @saveLocked_of_laid β dst lib copy { data with status := .completed } flat rfl laid present
  refine ⟨_, result, archiveCheckpoint_eq loaded, ?_, loadSpecific_of_mem flat record,
    loadLatestCompleted_of_laid flat rfl last record pointer, fun inner content => ?_⟩
  · have opened : dst.extractEntry lib (none, into) ⟨archiveMetaName, lib.marshal data⟩ =
      .ok (some data, into) := by
      simp only [extractEntry, if_true, lib.unmarshal_marshal]
    simp only [extractCheckpoint, foldlM_cons, opened, rounds, saves, bind, Except.bind,
      Bool.false_eq_true,
      if_false]
  · have moved : (inner ++ dst.place (dst.stateDir data.id), content) ∈ copy.entries ↔
        (inner ++ src.place (src.stateDir data.id), content) ∈ src.stateFiles files data := by
      rw [copied]
      constructor
      · rintro (old | ⟨other, same, mem⟩)
        · exact absurd rfl ((apart _ old).below inner).ne
        · rwa [append_cancel_right same]
      · exact fun mem => .inr ⟨inner, rfl, mem⟩
    rw [← mem_stateFiles, ← moved, target]
    exact kept inner content

section Examples

def copying : Library (CheckpointData ⊕ Text) where
  marshal := .inl
  unmarshal := Sum.getLeft?
  bytes := .inr
  string content := content.getRight?.getD []
  isSpace c := c = ' '
  parseInt _ := 0
  unmarshal_marshal _ := rfl
  string_bytes _ := rfl

def storageAt (name : Char) : FileStorage := ⟨[name], by simp, [], 1, Nat.le_refl 1⟩

def savepoint : CheckpointData :=
  ⟨['7'], 3, [], [], .prepared, [], [(['o'], ['o'])]⟩

def savepointFiles : Files (CheckpointData ⊕ Text) :=
  ⟨[([recordName ['7'], ['s']], .inl savepoint), ([['f'], ['o'], stateName ['7'], ['s']], .inr [])],
    by decide⟩

/-- A savepoint with one state directory is restored by another store. -/
theorem savepoint_extracted : ∃ archive result,
    (storageAt 's').archiveCheckpoint copying savepointFiles savepoint.id = .ok archive ∧
    (storageAt 'd').extractCheckpoint copying ⟨[], .nil⟩ archive = .ok (savepoint.id, result) ∧
    ([['f'], ['o'], stateName ['7'], ['d']], .inr []) ∈ result.entries := by
  have flat : '/' ∉ savepoint.id := by decide
  have loaded :
    (storageAt 's').loadSpecific copying savepointFiles savepoint.id = .ok (some savepoint) :=
    loadSpecific_of_mem flat mem_cons_self
  have filled : (storageAt 's').Filled savepointFiles savepoint := by
    intro owner mem
    obtain rfl := mem_singleton.1 mem
    exact ⟨_, mem_cons_of_mem _ mem_cons_self, ['f'], [], rfl⟩
  have inside : ∀ owner ∈ savepoint.stateDirs, Inside owner.2 := by
    intro owner mem
    obtain rfl := mem_singleton.1 mem
    exact ⟨rfl, by decide⟩
  obtain ⟨archive, result, archived, extracted, -, -, same⟩ :=
    extract_archive copying (storageAt 's')
    (storageAt 'd') savepointFiles ⟨[], .nil⟩ savepoint flat loaded (by decide) inside filled
      (by simp)
  refine ⟨archive, result, archived, extracted,
    (same [['f'], ['o']] (.inr [])).2 ⟨?_, (['o'], ['o']), ?_, ?_⟩⟩
  · exact mem_cons_of_mem _ mem_cons_self
  · exact mem_cons_self
  · exact ⟨[['f']], rfl⟩

end Examples

end FileStorage

end Weibo.Archive
