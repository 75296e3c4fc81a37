import Weibo.Checkpoint.Archive

/-!
# Where an archive is extracted

The id of a checkpoint comes out of the archive, and `StateDir` and the record path are joined with
it. What an extraction opens for writing lies under the directory exactly if `StateDir` of every id
does.
-/

namespace Weibo.Archive.FileStorage

open Filepath List Option

variable {β : Type} (fs : FileStorage) (lib : Library β)

def tmpSuffix : Text := ['.', 't', 'm', 'p']

/-- The files that `writeFileSync` opens or renames. -/
def synced (path : Text) : List (List Text) := [fs.place (path ++ tmpSuffix), fs.place path]

/-- The file that a round of the loop in `ExtractCheckpoint` opens for writing. -/
def opened (data : Option CheckpointData) (entry : Entry β) : List (List Text) :=
  match data with
  | none => []
  | some data =>
    let stateDir := fs.stateDir data.id
    let dest := join [stateDir, entry.name.drop archiveStateRoot.length]
    if entry.name ≠ archiveMetaName ∧ archiveStateRoot <+: entry.name ∧
        clean stateDir ++ ['/'] <+: clean dest then [fs.place dest] else []

def openedBy : Option CheckpointData × Files β → List (Entry β) → List (List Text)
  | _, [] => []
  | state, entry :: rest =>
    fs.opened state.1 entry ++
      match fs.extractEntry lib state entry with
      | .error _ => []
      | .ok next => openedBy next rest

/-- The files that `saveLocked` opens for writing, if none of its calls fails. -/
def savedFiles (files : Files β) (data : CheckpointData) : List (List Text) :=
  if data.stateDirs.all fun owner => files.Exists (fs.place (join [fs.stateDir data.id, owner.2]))
    then
    fs.synced (join [fs.dir, recordName data.id]) ++ fs.synced (join [fs.dir, latestName]) ++
      fs.synced (join [fs.dir, latestCompletedName])
  else []

/-- The files that `ExtractCheckpoint` opens for writing, whether or not it fails. -/
def touched (files : Files β) (archive : Tar β) : List (List Text) :=
  fs.openedBy lib (none, files) archive.entries ++
    match archive.entries.foldlM (fs.extractEntry lib) (none, files) with
    | .ok (some data, files) => if archive.damaged then [] else fs.savedFiles files data
    | _ => []

def Names (ok : Text → Prop) (entries : List (Entry β)) : Prop :=
  ∀ entry ∈ entries, entry.name = archiveMetaName → ∀ data, lib.unmarshal entry.body = some data →
    ok data.id

/-- `StateDir` of an id lies under the directory. -/
def Contains (id : Text) : Prop := Below (fs.place fs.dir) (fs.place (fs.stateDir id))

variable {fs} {lib}

theorem exists_siblings (fs : FileStorage) (id : Text) : ∃ last parent, fs.place
    (fs.stateDir id) = (last ++ ['.', 's', 't', 'a', 't', 'e']) :: parent ∧ ∀ more, '/' ∉ more →
    fs.place (join [fs.dir, recordName id] ++ more) = (last ++ jsonSuffix ++ more) :: parent := by
  obtain ⟨front, last, split⟩ :
    ∃ front last, elements (lead fs.dir (checkpointPrefix ++ id)) = front ++ [last] := by
    rcases eq_nil_or_concat (elements (lead fs.dir (checkpointPrefix ++ id))) with
      none | ⟨front, last, split⟩
    · exact absurd none (splitOn_ne_nil _ _)
    · exact ⟨front, last, by rw [split, concat_eq_append]⟩
  refine ⟨last, front.foldl (walk true) (origin fs.cwd (lead fs.dir (checkpointPrefix ++ id))), ?_,
    fun more flat => ?_⟩
  · have there := @locate_clean_append ['.', 's', 't', 'a', 't', 'e'] _ _ _ split (by decide)
      (by decide) fs.cwd []
      not_mem_nil
    rw [← join_append _ _ (by decide)] at there
    simpa [place, stateDir, stateName] using there
  · have there :=
      @locate_clean_append jsonSuffix _ _ _ split (by decide) (by decide) fs.cwd more flat
    rwa [← join_append _ _ (by decide)] at there

theorem below_cons_iff {root parent : List Text} {name : Text} :
    Below root (name :: parent) ↔ root <:+ parent := by
  constructor
  · rintro ⟨first, inner, whole⟩
    exact ⟨inner, ((cons.inj whole).2).symm⟩
  · rintro ⟨inner, rfl⟩
    exact ⟨name, inner, rfl⟩

variable {entry : Entry β} {found : List Text}

theorem below_of_opened {data : CheckpointData}
    (mem : found ∈ fs.opened (some data) entry) : Below (fs.place (fs.stateDir data.id)) found := by
  simp only [opened] at mem
  split at mem
  · next kept =>
    obtain rfl := mem_singleton.1 mem
    obtain ⟨rest, whole⟩ := kept.2.2
    obtain ⟨last, parent, there, -⟩ := exists_siblings { fs with cwd := [] } data.id
    have longer : clean (join [fs.stateDir data.id, entry.name.drop archiveStateRoot.length]) =
        clean (fs.stateDir data.id) ++ '/' :: rest := by
      rw [← whole]
      simp
    refine below_of_clean longer fun empty => ?_
    have none : (last ++ ['.', 's', 't', 'a', 't', 'e']) :: parent = [] := there.symm.trans empty
    cases none
  · cases mem

theorem below_trans {a b c : List Text} (outer : Below a b) (inner : Below b c) : Below a c := by
  obtain ⟨name, middle, rfl⟩ := outer
  obtain ⟨first, front, rfl⟩ := inner
  exact ⟨first, front ++ name :: middle, by simp⟩

variable {state : Option CheckpointData × Files β}

theorem data_of_extractEntry {next : Option CheckpointData × Files β}
    (round : fs.extractEntry lib state entry = .ok next) : next.1 = state.1 ∨
      ∃ data, entry.name = archiveMetaName ∧ lib.unmarshal entry.body = some data ∧
        next.1 = some data := by
  unfold extractEntry at round
  split at round
  · next name =>
    cases read : lib.unmarshal entry.body with rw [read] at round
    | none =>
      cases round
    | some data =>
      cases round
      exact .inr ⟨data, name, rfl, rfl⟩
  · split at round
    · cases known : state.1 with
      | none =>
        rw [known] at round
        cases round
      | some data =>
        simp only [known] at round
        split at round
        · split at round
          · cases round
          · cases round
            exact .inl rfl
        · cases round
    · cases round
      exact .inl rfl

theorem below_of_openedBy {ok : Text → Prop} (contained : ∀ id, ok id → fs.Contains id)
    (known : ∀ data, state.1 = some data → ok data.id)
    {entries : List (Entry β)} (named : Names lib ok entries) :
    (∀ found ∈ fs.openedBy lib state entries, Below (fs.place fs.dir) found) ∧
      ∀ last, entries.foldlM (fs.extractEntry lib) state = .ok last → ∀ data, last.1 = some data →
        ok data.id := by
  induction entries generalizing state with
  | nil =>
    refine ⟨(fun found mem => by cases mem), fun last ends => ?_⟩
    cases ends
    exact known
  | cons entry rest ih =>
    have first : ∀ found ∈ fs.opened state.1 entry, Below (fs.place fs.dir) found := by
      intro found mem
      cases holds : state.1 with rw [holds] at mem
      | none =>
        cases mem
      | some data =>
        exact below_trans (contained data.id (known data holds)) (below_of_opened mem)
    rw [openedBy, foldlM_cons]
    cases round : fs.extractEntry lib state entry with
    | error e =>
      exact ⟨fun found mem => first found (by simpa using mem), fun last ends => by cases ends⟩
    | ok next =>
      have still : ∀ data, next.1 = some data → ok data.id := by
        intro data holds
        rcases data_of_extractEntry round with same | ⟨other, name, read, is⟩
        · exact known data (same ▸ holds)
        · obtain rfl := some.inj (is.symm.trans holds)
          exact named entry mem_cons_self name other read
      obtain ⟨later, ends⟩ := ih still fun entry mem => named entry (mem_cons_of_mem _ mem)
      exact ⟨fun found mem => (mem_append.1 mem).elim (first found) (later found), ends⟩

theorem below_of_synced {id : Text} (contained : fs.Contains id)
    (mem : found ∈ fs.synced (join [fs.dir, recordName id])) : Below (fs.place fs.dir) found := by
  obtain ⟨last, parent, state, record⟩ := exists_siblings fs id
  have inside : fs.place fs.dir <:+ parent := by
    rw [Contains, state] at contained
    exact below_cons_iff.1 contained
  have whole := record [] not_mem_nil
  rw [append_nil] at whole
  simp only [synced, mem_cons, not_mem_nil, or_false, record tmpSuffix (by decide), whole] at mem
  rcases mem with rfl | rfl
  · exact below_cons_iff.2 inside
  · exact below_cons_iff.2 inside

theorem below_of_pointer {name : Text} (flat : '/' ∉ name) (long : 3 ≤ name.length)
    (mem : found ∈ fs.synced (join [fs.dir, name])) : Below (fs.place fs.dir) found := by
  have temporary := locate_join_append fs.cwd fs.dir flat long (show '/' ∉ tmpSuffix by decide)
  have final := locate_join_append fs.cwd fs.dir flat long (not_mem_nil (a := '/'))
  rw [append_nil] at final
  simp only [synced, place, mem_cons, not_mem_nil, or_false, temporary, final] at mem
  rcases mem with rfl | rfl
  · exact below_cons_iff.2 (suffix_refl _)
  · exact below_cons_iff.2 (suffix_refl _)

variable {file : List Text × β}

theorem mem_of_extractEntry {next : Option CheckpointData × Files β}
    (round : fs.extractEntry lib state entry = .ok next) (mem : file ∈ next.2.entries) :
    file ∈ state.2.entries ∨ file.1 ∈ fs.opened state.1 entry := by
  unfold extractEntry at round
  split at round
  · split at round
    · cases round
    · cases round
      exact .inl mem
  · next other =>
    split at round
    · next below =>
      cases known : state.1 with
      | none =>
        rw [known] at round
        cases round
      | some data =>
        simp only [known] at round
        split at round
        · next guarded =>
          split at round
          · cases round
          · next written =>
            cases round
            rcases (Files.mem_write written).1 mem with ⟨kept, _⟩ | rfl
            · exact .inl kept
            · exact .inr (by simp [opened, other, below, guarded])
        · cases round
    · cases round
      exact .inl mem

theorem mem_of_foldlM {last : Option CheckpointData × Files β} {entries : List (Entry β)}
    (loop : entries.foldlM (fs.extractEntry lib) state = .ok last) (mem : file ∈ last.2.entries) :
    file ∈ state.2.entries ∨ file.1 ∈ fs.openedBy lib state entries := by
  induction entries generalizing state with
  | nil =>
    cases loop
    exact .inl mem
  | cons entry rest ih =>
    rw [foldlM_cons] at loop
    cases round : fs.extractEntry lib state entry with rw [round] at loop
    | error e =>
      cases loop
    | ok next =>
      simp only [openedBy, round, mem_append]
      rcases ih loop with before | later
      · exact (mem_of_extractEntry round before).imp_right .inl
      · exact .inr (.inr later)

variable {files after : Files β}

theorem mem_of_writeFileSync {path : Text} {content : β}
    (written : fs.writeFileSync files path content = .ok after) (mem : file ∈ after.entries) :
    file ∈ files.entries ∨ file.1 ∈ fs.synced path := by
  unfold writeFileSync at written
  split_ifs at written
  split at written
  · next stored =>
    cases written
    rcases (Files.mem_write stored).1 mem with ⟨kept, _⟩ | rfl
    · exact .inl kept
    · exact .inr (by simp [synced])
  · cases written

theorem mem_of_discard {victims : List CheckpointData}
    (gone : victims.foldlM (fun files => fs.discard files) files = .ok after)
    (mem : file ∈ after.entries) : file ∈ files.entries := by
  induction victims generalizing files with
  | nil =>
    cases gone
    exact mem
  | cons victim rest ih =>
    rw [foldlM_cons] at gone
    cases removed : files.remove (fs.place (join [fs.dir, recordName victim.id])) with
    | none =>
      rw [discard, removed] at gone
      cases gone
    | some fewer =>
      rw [discard, removed] at gone
      have kept : file ∈ fewer.entries := mem_of_mem_filter (ih gone)
      unfold Files.remove at removed
      split at removed
      · cases removed
      · cases removed
        exact mem_of_mem_filter kept

theorem exists_of_bind {ε α γ : Type} {first : Except ε α} {f : α → Except ε γ} {last : γ}
    (runs : first >>= f = .ok last) : ∃ middle, first = .ok middle ∧ f middle = .ok last := by
  cases first with
  | error e => cases runs
  | ok middle => exact ⟨middle, rfl, runs⟩

theorem mem_of_saveLocked {data : CheckpointData}
    (saved : fs.saveLocked lib files { data with status := .completed } = .ok after)
    (mem : file ∈ after.entries) : file ∈ files.entries ∨ file.1 ∈ fs.savedFiles files data := by
  simp only [saveLocked, reduceCtorEq, if_false, if_true] at saved
  split at saved
  · cases saved
  · next present =>
    have all : (data.stateDirs.all fun owner =>
        files.Exists (fs.place (join [fs.stateDir data.id, owner.2]))) = true := by
      simpa using present
    rw [savedFiles, if_pos all]
    obtain ⟨one, record, saved⟩ := exists_of_bind saved
    obtain ⟨two, latest, saved⟩ := exists_of_bind saved
    obtain ⟨three, completed, retained⟩ := exists_of_bind saved
    simp only [mem_append]
    rcases mem_of_writeFileSync completed (mem_of_discard retained mem) with mem | here
    · rcases mem_of_writeFileSync latest mem with mem | here
      · exact (mem_of_writeFileSync record mem).imp_right fun here => .inl (.inl here)
      · exact .inr (.inl (.inr here))
    · exact .inr (.inr here)

/-- A file that an extraction leaves was there before or was opened for writing. -/
theorem mem_touched {result : Files β} {archive : Tar β} {id : Text}
    (extracted : fs.extractCheckpoint lib files archive = .ok (id, result)) (mem :
    file ∈ result.entries) : file ∈ files.entries ∨ file.1 ∈ fs.touched lib files archive := by
  unfold extractCheckpoint at extracted
  cases loop : archive.entries.foldlM (fs.extractEntry lib) (none, files) with
  | error e =>
    rw [loop] at extracted
    cases extracted
  | ok last =>
    obtain ⟨known, now⟩ := last
    rw [loop] at extracted
    simp only [bind, Except.bind] at extracted
    split at extracted
    · cases extracted
    · next intact =>
      cases known with
      | none => cases extracted
      | some data =>
        cases saved : fs.saveLocked lib now { data with status := .completed } with
        | error e =>
          simp only [saved] at extracted
          cases extracted
        | ok after =>
          simp only [saved] at extracted
          cases extracted
          simp only [touched, loop, if_neg intact, mem_append]
          rcases mem_of_saveLocked saved mem with before | here
          · exact (mem_of_foldlM loop before).imp_right .inl
          · exact .inr (.inr here)

/-- Whatever an archive holds beside its ids: all that `ExtractCheckpoint` opens for writing lies
under the directory exactly if `StateDir` of every id does. -/
theorem touched_below_iff (fs : FileStorage) (lib : Library β) (ok : Text → Prop) :
    (∀ (files : Files β) (archive : Tar β), Names lib ok archive.entries →
      ∀ found ∈ fs.touched lib files archive, Below (fs.place fs.dir) found) ↔ ∀ id, ok id →
        fs.Contains id := by
  constructor
  · intro confined id allowed
    -- A record alone is enough: it is written beside the state directory.
    let data : CheckpointData := ⟨id, 0, [], [], .completed, [], []⟩
    have named : Names lib ok [⟨archiveMetaName, lib.marshal data⟩] := by
      intro entry mem _ other read
      obtain rfl := mem_singleton.1 mem
      obtain rfl := some.inj ((lib.unmarshal_marshal data).symm.trans read)
      exact allowed
    have written : fs.place (join [fs.dir, recordName id]) ∈
        fs.touched lib ⟨[], .nil⟩ ⟨[⟨archiveMetaName, lib.marshal data⟩], false⟩ := by
      have opening : fs.extractEntry lib (none, ⟨[], .nil⟩) ⟨archiveMetaName, lib.marshal data⟩ =
          .ok (some data, ⟨[], .nil⟩) := by
        simp only [extractEntry, if_true, lib.unmarshal_marshal]
      simp [touched, foldlM_cons, opening, bind, Except.bind, savedFiles, synced, data, pure,
        Except.pure]
    have below := confined _ _ named _ written
    obtain ⟨last, parent, state, record⟩ := exists_siblings fs id
    have whole := record [] not_mem_nil
    rw [append_nil] at whole
    rw [whole] at below
    rw [Contains, state]
    exact below_cons_iff.2 (below_cons_iff.1 below)
  · intro contained files archive named found mem
    have begins :
      ∀ data, ((none, files) : Option CheckpointData × Files β).1 = some data → ok data.id :=
      fun _ none => by cases none
    obtain ⟨loop, ends⟩ := below_of_openedBy contained begins named
    rcases mem_append.1 mem with opening | saving
    · exact loop found opening
    · split at saving
      · next data last outcome =>
        split at saving
        · cases saving
        · simp only [savedFiles] at saving
          split at saving
          · rcases mem_append.1 saving with first | last
            · rcases mem_append.1 first with record | latest
              · exact below_of_synced (contained _ (ends _ outcome data rfl)) record
              · exact below_of_pointer (by decide) (by decide) latest
            · exact below_of_pointer (by decide) (by decide) last
          · cases saving
      · cases saving

/-- An archive whose id climbs out of the directory has its record written beside it. -/
theorem record_escapes :
    ∃ archive result, (storageAt 'd').extractCheckpoint copying ⟨[], .nil⟩ archive =
      .ok (['x', '/', '.', '.', '/', '.', '.', '/', 'e'], result) ∧
    ∃ content, ([['e', '.', 'j', 's', 'o', 'n']], content) ∈ result.entries ∧
      ¬ Below ((storageAt 'd').place (storageAt 'd').dir) [['e', '.', 'j', 's', 'o', 'n']] := by
  refine ⟨⟨[⟨archiveMetaName,
    .inl ⟨['x', '/', '.', '.', '/', '.', '.', '/', 'e'], 0, [], [], .completed, [], []⟩⟩],
    false⟩, _, rfl, _, mem_cons_self, ?_⟩
  rintro ⟨name, inner, whole⟩
  have length := congrArg length whole
  have one : ((storageAt 'd').place (storageAt 'd').dir).length = 1 := by decide
  simp [one] at length

end Weibo.Archive.FileStorage
