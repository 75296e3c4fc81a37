import Weibo.Lib.Transition
import Weibo.State.PebbleRefinement

/-!
# Lists of the Pebble backend across restarts

The store of a Pebble backend is checkpointed, restored, reset, closed and opened again, and the
counters of the lists are found again in it. The lists hold what `Lists` says, and an append writes
to a key that is not taken.
-/

namespace Weibo.State

open AList

open Transition (Reach)

inductive Event where
  | call (call : Call)
  | checkpointTo (dir : Bytes)
  | restoreFrom (dir : Bytes)
  | reset
  | reopen

structure Lists where
  list : Handle → List Bytes := fun _ => []
  saved : ValueState Bytes (Handle → List Bytes) := ∅
  opened : Bool := true

namespace Lists

def next (l : Lists) : Event → Lists
  | .call (.list handle (.append value)) =>
    if l.opened then { l with list := Function.update l.list handle (l.list handle ++ [value]) }
    else l
  | .call (.list handle .clear) =>
    if l.opened then { l with list := Function.update l.list handle [] } else l
  | .call _ => l
  | .checkpointTo dir =>
    if l.opened ∧ (l.saved.lookup dir).isNone then
      { l with saved := l.saved.insert dir l.list }
    else l
  | .restoreFrom dir =>
    match l.saved.lookup dir with
    | some list => { l with list, opened := true }
    | none => { l with list := fun _ => [], opened := false }
  | .reset => { l with list := fun _ => [], opened := true }
  | .reopen => { l with opened := true }

end Lists

structure Life where
  backend : PebbleBackend := {}
  checkpoints : ValueState Bytes (OrderedMap Bytes Bytes) := ∅
  lists : Lists := {}

namespace Life

/-- What an event does to the backend and to the directories. A restore wipes the live directory
before it copies the checkpoint: when there is none, the backend stays closed and empty. -/
def files (life : Life) : Event → PebbleBackend × ValueState Bytes (OrderedMap Bytes Bytes)
  | .call call => ((PebbleBackend.backend.call life.backend call).1, life.checkpoints)
  | .checkpointTo dir =>
    (life.backend,
      if life.backend.closed = false ∧ (life.checkpoints.lookup dir).isNone then
        life.checkpoints.insert dir life.backend.db
      else life.checkpoints)
  | .restoreFrom dir =>
    match life.checkpoints.lookup dir with
    | some db => ({ db }, life.checkpoints)
    | none => ({ life.backend with db := .empty, closed := true }, life.checkpoints)
  | .reset => ({}, life.checkpoints)
  | .reopen => ({ db := life.backend.db }, life.checkpoints)

def step (life : Life) (event : Event) : Option Life :=
  some ⟨(life.files event).1, (life.files event).2, life.lists.next event⟩

/-- Calls name namespaces from a given set, lists are under keys without NUL bytes, and the
numbers of list elements do not reach `2 ^ 64`. -/
def Allowed (names : Set Bytes) (life : Life) : Event → Prop
  | .call (.value handle _) => handle.name ∈ names
  | .call (.list handle (.append _)) =>
    handle.name ∈ names ∧ 0 ∉ handle.key ∧ life.backend.nextSeq handle + 1 < 2 ^ 64
  | .call (.list handle _) => handle.name ∈ names ∧ 0 ∉ handle.key
  | _ => True

end Life

/-- Value handles with the given namespaces, and list handles with the given namespaces and keys
without NUL bytes. -/
def nulFree (names : Set Bytes) : Scope where
  values := { handle | handle.name ∈ names }
  lists := { handle | handle.name ∈ names ∧ 0 ∉ handle.key }

structure Life.Inv (scope : Scope) (life : Life) : Prop where
  closed : life.backend.closed = !life.lists.opened
  held : life.backend.closed = false → ∃ next value,
    Stores scope next life.backend ⟨value, life.lists.list⟩
  wiped : life.backend.closed = true → life.backend.db = .empty ∧ life.lists.list = fun _ => []
  saved : ∀ dir, match life.checkpoints.lookup dir with
    | none => life.lists.saved.lookup dir = none
    | some db => ∃ list next value, life.lists.saved.lookup dir = some list ∧
        Stores scope next { db } ⟨value, list⟩

theorem Stores.reopen {scope : Scope} {next : Handle → Nat} {p : PebbleBackend}
    {contents : Contents} (stores : Stores scope next p contents) :
    Stores scope next { db := p.db } contents :=
  { stores with opened := rfl, seeded := fun _ _ found => absurd found (by rintro ⟨⟩) }

theorem PebbleBackend.call_closed {p : PebbleBackend} (closed : p.closed = true) (call : Call) :
    (backend.call p call).1 = p := by
  cases call with
  | value handle method => cases method <;> simp [backend, callValue, closed]
  | list handle method => cases method <;> simp [backend, callList, closed]
  | _ => rfl

namespace Life

variable {names : Set Bytes} {life : Life}

theorem list_call (l : Lists) (opened : l.opened = true) (call : Call)
    (value : Handle → Option Bytes) :
    l.next (.call call) = { l with list := (Contents.next ⟨value, l.list⟩ call).list } := by
  cases call with
  | list handle method =>
    cases method with
    | append value | clear => simp [Lists.next, Contents.next, opened]
    | _ => rfl
  | value handle method => cases method <;> rfl
  | _ => rfl

theorem list_call_closed (l : Lists) (closed : l.opened = false) (call : Call) :
    l.next (.call call) = l := by
  cases call with
  | list handle method => cases method <;> simp [Lists.next, closed]
  | _ => rfl

theorem Allowed.within {call : Call} (allowed : Allowed names life (.call call)) :
    call.Within (nulFree names) ∧
      ∀ handle, call.appends handle = true → life.backend.nextSeq handle + 1 < 2 ^ 64 := by
  cases call with
  | value handle method =>
    constructor
    · cases method with
      | restoreAll entries => exact ⟨allowed, fun _ _ => allowed⟩
      | _ => exact allowed
    · rintro _ ⟨⟩
  | list handle method =>
    cases method with
    | append value =>
      refine ⟨⟨allowed.1, allowed.2.1⟩, fun other adds => ?_⟩
      have same : handle = other := by simpa [Call.appends] using adds
      exact same ▸ allowed.2.2
    | _ => exact ⟨allowed, (by rintro _ ⟨⟩)⟩
  | _ => exact ⟨trivial, (by rintro _ ⟨⟩)⟩

theorem inv_start (scope : Scope) : Inv scope {} where
  closed := rfl
  held _ := ⟨_, _, stores_start scope⟩
  wiped closed := absurd closed (by rintro ⟨⟩)
  saved _ := rfl

theorem Inv.call (separate : Separate names) (inv : Inv (nulFree names) life) {call : Call}
    (allowed : Allowed names life (.call call)) :
    Inv (nulFree names) ⟨(life.files (.call call)).1, (life.files (.call call)).2,
      life.lists.next (.call call)⟩ := by
  have apart : Apart (nulFree names) := separate.apart (fun _ mem => mem) (fun _ mem => mem)
  obtain ⟨within, fits⟩ := allowed.within
  cases closed : life.backend.closed with
  | false =>
    obtain ⟨next, value, stores⟩ := inv.held closed
    obtain ⟨after, kept, _⟩ := Stores.call_spec apart stores within fits
    have opened : life.lists.opened = true := by simpa [closed] using inv.closed
    rw [list_call life.lists opened call value]
    refine ⟨?_, fun _ => ⟨after, _, kept⟩, fun shut => ?_, inv.saved⟩
    · rw [opened]
      exact kept.opened
    · exact absurd (kept.opened.symm.trans shut) (by rintro ⟨⟩)
  | true =>
    have opened : life.lists.opened = false := by simpa [closed] using inv.closed
    rw [list_call_closed life.lists opened call]
    simp only [files, PebbleBackend.call_closed closed]
    exact inv

variable {scope : Scope}

theorem Inv.checkpointTo (inv : Inv scope life) (dir : Bytes) :
    Inv scope ⟨(life.files (.checkpointTo dir)).1, (life.files (.checkpointTo dir)).2,
      life.lists.next (.checkpointTo dir)⟩ := by
  have absent : (life.lists.saved.lookup dir).isNone = (life.checkpoints.lookup dir).isNone := by
    have saved := inv.saved dir
    split at saved
    · next missing =>
      rw [saved, missing]
      rfl
    · next db found =>
      obtain ⟨list, _, _, same, _⟩ := saved
      rw [same, found]
      rfl
  have writes : (life.lists.opened = true ∧ (life.lists.saved.lookup dir).isNone = true) ↔
      (life.backend.closed = false ∧ (life.checkpoints.lookup dir).isNone = true) := by
    rw [absent, inv.closed, Bool.not_eq_false']
  by_cases fresh : life.backend.closed = false ∧ (life.checkpoints.lookup dir).isNone = true
  · simp only [files, Lists.next, if_pos fresh, if_pos (writes.2 fresh)]
    refine { inv with saved := fun other => ?_ }
    by_cases same : other = dir
    · subst same
      obtain ⟨next, value, stores⟩ := inv.held fresh.1
      rw [lookup_insert]
      exact ⟨_, next, value, lookup_insert _, stores.reopen⟩
    · rw [lookup_insert_ne same, lookup_insert_ne same]
      exact inv.saved other
  · simp only [files, Lists.next, if_neg fresh, if_neg (fun both => fresh (writes.1 both))]
    exact inv

theorem Inv.restoreFrom (inv : Inv scope life) (dir : Bytes) :
    Inv scope ⟨(life.files (.restoreFrom dir)).1, (life.files (.restoreFrom dir)).2,
      life.lists.next (.restoreFrom dir)⟩ := by
  have saved := inv.saved dir
  cases found : life.checkpoints.lookup dir with rw [found] at saved
  | none =>
    simp only [files, Lists.next, found, saved]
    exact ⟨rfl, (by rintro ⟨⟩), fun _ => ⟨rfl, rfl⟩, inv.saved⟩
  | some db =>
    obtain ⟨list, next, value, same, stores⟩ := saved
    simp only [files, Lists.next, found, same]
    exact ⟨rfl, fun _ => ⟨next, value, stores⟩, (by rintro ⟨⟩), inv.saved⟩

theorem Inv.reopen (inv : Inv scope life) :
    Inv scope ⟨(life.files .reopen).1, (life.files .reopen).2, life.lists.next .reopen⟩ := by
  refine ⟨rfl, fun _ => ?_, (by rintro ⟨⟩), inv.saved⟩
  cases closed : life.backend.closed with
  | false =>
    obtain ⟨next, value, stores⟩ := inv.held closed
    exact ⟨next, value, stores.reopen⟩
  | true =>
    obtain ⟨empty, cleared⟩ := inv.wiped closed
    refine ⟨fun _ => 0, fun _ => none, ?_⟩
    simp only [files, Lists.next, empty, cleared]
    exact stores_start scope

theorem Inv.step (separate : Separate names) (inv : Inv (nulFree names) life) {event : Event}
    {after : Life} (allowed : Allowed names life event) (steps : life.step event = some after) :
    Inv (nulFree names) after := by
  cases steps
  cases event with
  | call call => exact inv.call separate allowed
  | checkpointTo dir => exact inv.checkpointTo dir
  | restoreFrom dir => exact inv.restoreFrom dir
  | reset => exact ⟨rfl, fun _ => ⟨_, _, stores_start _⟩, (by rintro ⟨⟩), inv.saved⟩
  | reopen => exact inv.reopen

/-- After any sequence of events, `GetAll` returns what the list should hold, and the next
`Append` writes to a key that has no entry. -/
theorem lists_append_only (separate : Separate names)
    (reach : Reach step (Allowed names) {} life) (handle : Handle) (named : handle.name ∈ names)
    (keyed : 0 ∉ handle.key) :
      (life.backend.callList handle .getAll).2 = .values (life.lists.list handle) ∧
      (life.backend.closed = false → life.backend.nextSeq handle + 1 < 2 ^ 64 →
        life.backend.db.get (listEntryKey handle.name handle.key (life.backend.nextSeq handle)) =
          none) := by
  have inv : Inv (nulFree names) life :=
    reach.invariant (inv_start _) fun _ _ _ inv allowed steps => inv.step separate allowed steps
  have apart : Apart (nulFree names) := separate.apart (fun _ mem => mem) (fun _ mem => mem)
  have mem : handle ∈ (nulFree names).lists := ⟨named, keyed⟩
  cases closed : life.backend.closed with
  | false =>
    obtain ⟨next, value, stores⟩ := inv.held closed
    constructor
    · exact Stores.getAll_eq apart stores mem
    · intro _ fits
      exact OrderedMap.get_eq_none.2 (Stores.append_fresh apart stores mem fits)
  | true =>
    obtain ⟨_, cleared⟩ := inv.wiped closed
    constructor
    · simp [PebbleBackend.callList, closed, cleared]
    · rintro ⟨⟩

end Life

/-! ## The namespaces of the operators -/

def windowRecordsNS : Bytes := [119, 105, 110, 100, 111, 119, 95, 114, 101, 99, 111, 114, 100, 115]

def joinRightNS : Bytes := [106, 111, 105, 110, 95, 114, 105, 103, 104, 116]

def listNamespaces : Set Bytes :=
  { name | name = windowRecordsNS ∨ name = joinLeftNS ∨ name = joinRightNS }

instance : DecidablePred (· ∈ listNamespaces) :=
  fun name => inferInstanceAs (Decidable (name = _ ∨ name = _ ∨ name = _))

theorem separate_listNamespaces : Separate listNamespaces := by
  apply separate_of_nulFree
  rintro name (rfl | rfl | rfl) <;> decide

namespace Life

instance (names : Set Bytes) [DecidablePred (· ∈ names)] (life : Life) (event : Event) :
    Decidable (Allowed names life event) :=
  match event with
  | .call (.value handle _) => inferInstanceAs (Decidable (handle.name ∈ names))
  | .call (.list handle (.append _)) =>
    inferInstanceAs (Decidable (handle.name ∈ names ∧ 0 ∉ handle.key ∧ _ < _))
  | .call (.list handle .getAll) =>
    inferInstanceAs (Decidable (handle.name ∈ names ∧ 0 ∉ handle.key))
  | .call (.list handle .clear) =>
    inferInstanceAs (Decidable (handle.name ∈ names ∧ 0 ∉ handle.key))
  | .call (.list handle .keys) =>
    inferInstanceAs (Decidable (handle.name ∈ names ∧ 0 ∉ handle.key))
  | .call (.valueState _) => isTrue trivial
  | .call (.listState _) => isTrue trivial
  | .checkpointTo _ => isTrue trivial
  | .restoreFrom _ => isTrue trivial
  | .reset => isTrue trivial
  | .reopen => isTrue trivial

/-- A window with the records `a`, `b`: `b` comes after the checkpoint and is taken back by the
restore, then `c` comes, and `d` after the store was closed and opened again. -/
def restartedWindow : List Event :=
  let window : Handle := ⟨windowRecordsNS, [119]⟩
  [.call (.list window (.append [97])), .checkpointTo [1], .call (.list window (.append [98])),
    .restoreFrom [1], .call (.list window (.append [99])), .reopen,
    .call (.list window (.append [100]))]

/-- The window holds `a`, `c`, `d` at the end, and the next number is free. -/
theorem lists_append_only_restarted : ∃ life : Life, Reach step (Allowed listNamespaces) {} life ∧
      (life.backend.callList ⟨windowRecordsNS, [119]⟩ .getAll).2 = .values [[97], [99], [100]] ∧
      life.backend.nextSeq ⟨windowRecordsNS, [119]⟩ = 3 ∧
      life.backend.db.get (listEntryKey windowRecordsNS [119] 3) = none := by
  obtain ⟨life, reach, ends⟩ := Reach.exists_of_guarded step (Allowed listNamespaces) {}
    restartedWindow (fun life => !life.backend.closed &&
      life.lists.list ⟨windowRecordsNS, [119]⟩ == [[97], [99], [100]] &&
      life.backend.nextSeq ⟨windowRecordsNS, [119]⟩ == 3) (by decide +kernel)
  simp only [Bool.and_eq_true, Bool.not_eq_true', beq_iff_eq] at ends
  obtain ⟨⟨opened, list⟩, number⟩ := ends
  obtain ⟨read, free⟩ := lists_append_only separate_listNamespaces reach ⟨windowRecordsNS, [119]⟩
    (.inl rfl) (by decide)
  rw [list] at read
  have last := free opened (by rw [number]; decide)
  rw [number] at last
  exact ⟨life, reach, read, number, last⟩

end Life

end Weibo.State
