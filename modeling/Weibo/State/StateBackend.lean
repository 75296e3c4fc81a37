import Weibo.State.Json

/-!
# State backends and the memory backend

The methods of a handle read and write what is stored under its current key. `MemoryBackend` keeps
nested Go maps. A backend implements `Contents`, a value or nothing and a list for every namespace
and key, when every call has its effect and its answer. A nil slice is an empty one here.
-/

namespace Weibo.State

open List Option Function AList

/-! ## Calls -/

/-- The fields of `memoryValueState`, `memoryListState`, `pebbleValueState` and
`pebbleListState` that choose what a method works on. -/
structure Handle where
  name : Bytes
  key : Bytes := []
  deriving DecidableEq

/-- The methods of the `ValueState` interface, apart from `SetKey`. -/
inductive ValueMethod where
  | get
  | set (value : Bytes)
  | clear
  | keys
  | snapshotAll
  | restoreAll (entries : ValueState Bytes Bytes)

/-- The methods of the `ListState` interface, apart from `SetKey`. -/
inductive ListMethod where
  | append (value : Bytes)
  | getAll
  | clear
  | keys

inductive Call where
  | valueState (name : Bytes)
  | listState (name : Bytes)
  | value (handle : Handle) (method : ValueMethod)
  | list (handle : Handle) (method : ListMethod)

inductive Reply where
  | done
  | error
  | value (value : Bytes)
  | values (values : List Bytes)
  | keys (keys : List Bytes)
  | snapshot (entries : ValueState Bytes Bytes)

inductive Reply.Same : Reply → Reply → Prop
  | done : Same .done .done
  | error : Same .error .error
  | value (value : Bytes) : Same (.value value) (.value value)
  | values (values : List Bytes) : Same (.values values) (.values values)
  | keys {first second : List Bytes} (same : ∀ key, key ∈ first ↔ key ∈ second) :
      Same (.keys first) (.keys second)
  | snapshot {first second : ValueState Bytes Bytes}
      (same : ∀ key, first.lookup key = second.lookup key) :
      Same (.snapshot first) (.snapshot second)

/-- The interface `StateBackend`, with the methods of the handles it gives out. -/
structure StateBackend (σ : Type) where
  call : σ → Call → σ × Reply

namespace StateBackend

variable {σ : Type}

def after (backend : StateBackend σ) (state : σ) (calls : List Call) : σ :=
  calls.foldl (fun state call => (backend.call state call).1) state

def replies (backend : StateBackend σ) : σ → List Call → List Reply
  | _, [] => []
  | state, call :: calls =>
    (backend.call state call).2 :: replies backend (backend.call state call).1 calls

theorem length_replies (backend : StateBackend σ) (state : σ) (calls : List Call) :
    (backend.replies state calls).length = calls.length := by
  induction calls generalizing state with
  | nil => rfl
  | cons call calls ih => rw [replies, length_cons, length_cons, ih]

theorem replies_append (backend : StateBackend σ) (state : σ) (first second : List Call) :
    backend.replies state (first ++ second) =
      backend.replies state first ++ backend.replies (backend.after state first) second := by
  induction first generalizing state with
  | nil => rfl
  | cons call first ih =>
    rw [cons_append, replies, ih, replies, cons_append]
    rfl

end StateBackend

/-- What the user of a backend does: handles are numbered in the order in which they were
made. -/
inductive Op where
  | valueState (name : Bytes)
  | listState (name : Bytes)
  | setValueKey (handle : Nat) (key : Bytes)
  | setListKey (handle : Nat) (key : Bytes)
  | value (handle : Nat) (method : ValueMethod)
  | list (handle : Nat) (method : ListMethod)

structure Handles where
  values : List Handle := []
  lists : List Handle := []

/-- The calls that reach the backend: `SetKey` only changes the handle. -/
def Handles.calls : Handles → List Op → List Call
  | _, [] => []
  | handles, .valueState name :: ops =>
    .valueState name :: calls { handles with values := handles.values ++ [{ name }] } ops
  | handles, .listState name :: ops =>
    .listState name :: calls { handles with lists := handles.lists ++ [{ name }] } ops
  | handles, .setValueKey handle key :: ops =>
    calls { handles with values := handles.values.modify handle ({ · with key }) } ops
  | handles, .setListKey handle key :: ops =>
    calls { handles with lists := handles.lists.modify handle ({ · with key }) } ops
  | handles, .value handle method :: ops =>
    (handles.values[handle]?.map (Call.value · method)).toList ++ calls handles ops
  | handles, .list handle method :: ops =>
    (handles.lists[handle]?.map (Call.list · method)).toList ++ calls handles ops

/-! ## What a backend is for -/

structure Contents where
  value : Handle → Option Bytes := fun _ => none
  list : Handle → List Bytes := fun _ => []

namespace Contents

def next (contents : Contents) : Call → Contents
  | .value handle (.set value) =>
    { contents with value := update contents.value handle (some value) }
  | .value handle .clear => { contents with value := update contents.value handle none }
  | .value handle (.restoreAll entries) =>
    { contents with value := fun other =>
        if other.name = handle.name then entries.lookup other.key else contents.value other }
  | .list handle (.append value) =>
    { contents with
        list := update contents.list handle (contents.list handle ++ [value]) }
  | .list handle .clear => { contents with list := update contents.list handle [] }
  | _ => contents

inductive Answers (contents : Contents) : Call → Reply → Prop
  | valueState (name : Bytes) : Answers contents (.valueState name) .done
  | listState (name : Bytes) : Answers contents (.listState name) .done
  | get (handle : Handle) :
      Answers contents (.value handle .get) (.value ((contents.value handle).getD []))
  | set (handle : Handle) (value : Bytes) : Answers contents (.value handle (.set value)) .done
  | clear (handle : Handle) : Answers contents (.value handle .clear) .done
  | keys (handle : Handle) (keys : List Bytes)
      (listed : ∀ key, key ∈ keys ↔ (contents.value { handle with key }).isSome) :
      Answers contents (.value handle .keys) (.keys keys)
  | snapshotAll (handle : Handle) (entries : ValueState Bytes Bytes)
      (copied : ∀ key, entries.lookup key = contents.value { handle with key }) :
      Answers contents (.value handle .snapshotAll) (.snapshot entries)
  | restoreAll (handle : Handle) (entries : ValueState Bytes Bytes) :
      Answers contents (.value handle (.restoreAll entries)) .done
  | append (handle : Handle) (value : Bytes) : Answers contents (.list handle (.append value)) .done
  | getAll (handle : Handle) :
      Answers contents (.list handle .getAll) (.values (contents.list handle))
  | clearList (handle : Handle) : Answers contents (.list handle .clear) .done
  | keysList (handle : Handle) (keys : List Bytes)
      (listed : ∀ key, key ∈ keys ↔ contents.list { handle with key } ≠ []) :
      Answers contents (.list handle .keys) (.keys keys)

theorem Answers.same {contents : Contents} {call : Call} {first second : Reply}
    (answers : Answers contents call first) (others : Answers contents call second) :
    Reply.Same first second := by
  cases answers with
  | get => cases others; exact .value _
  | getAll => cases others; exact .values _
  | keys _ _ listed =>
    cases others with
    | keys _ _ relisted => exact .keys fun key => (listed key).trans (relisted key).symm
  | keysList _ _ listed =>
    cases others with
    | keysList _ _ relisted => exact .keys fun key => (listed key).trans (relisted key).symm
  | snapshotAll _ _ copied =>
    cases others with
    | snapshotAll _ _ recopied =>
      exact .snapshot fun key => (copied key).trans (recopied key).symm
  | _ => cases others; exact .done

def after (contents : Contents) (calls : List Call) : Contents := calls.foldl next contents

end Contents

/-! ## The memory backend -/

/-- `MemoryBackend`: the values and the lists of every namespace that has a handle. -/
structure MemoryBackend where
  value : ValueState Bytes (ValueState Bytes Bytes) := ∅
  list : ValueState Bytes (ListState Bytes Bytes) := ∅

namespace MemoryBackend

def valueData (m : MemoryBackend) (name : Bytes) : ValueState Bytes Bytes :=
  (m.value.lookup name).getD ∅

def listData (m : MemoryBackend) (name : Bytes) : ListState Bytes Bytes :=
  (m.list.lookup name).getD ∅

def putValue (m : MemoryBackend) (name : Bytes) (data : ValueState Bytes Bytes) : MemoryBackend :=
  { m with value := m.value.insert name data }

def putList (m : MemoryBackend) (name : Bytes) (data : ListState Bytes Bytes) : MemoryBackend :=
  { m with list := m.list.insert name data }

/-- `MemoryBackend.ValueState`: the map of the namespace is made when it is not there. -/
def valueState (m : MemoryBackend) (name : Bytes) : MemoryBackend :=
  if (m.value.lookup name).isNone then m.putValue name ∅ else m

def listState (m : MemoryBackend) (name : Bytes) : MemoryBackend :=
  if (m.list.lookup name).isNone then m.putList name ∅ else m

def callValue (m : MemoryBackend) (handle : Handle) : ValueMethod → MemoryBackend × Reply
  | .get => (m, .value (((m.valueData handle.name).lookup handle.key).getD []))
  | .set value =>
    (m.putValue handle.name ((m.valueData handle.name).insert handle.key value), .done)
  | .clear =>
    (if (m.value.lookup handle.name).isSome then
      m.putValue handle.name ((m.valueData handle.name).erase handle.key)
    else m, .done)
  | .keys => (m, .keys (m.valueData handle.name).keys)
  | .snapshotAll => (m, .snapshot (m.valueData handle.name))
  | .restoreAll entries => (m.putValue handle.name entries, .done)

def callList (m : MemoryBackend) (handle : Handle) : ListMethod → MemoryBackend × Reply
  | .append value =>
    (m.putList handle.name ((m.listData handle.name).append handle.key value), .done)
  | .getAll => (m, .values ((m.listData handle.name).getAll handle.key))
  | .clear =>
    (if (m.list.lookup handle.name).isSome then
      m.putList handle.name ((m.listData handle.name).clear handle.key)
    else m, .done)
  | .keys => (m, .keys (m.listData handle.name).keys)

def backend : StateBackend MemoryBackend where
  call m
    | .valueState name => (m.valueState name, .done)
    | .listState name => (m.listState name, .done)
    | .value handle method => m.callValue handle method
    | .list handle method => m.callList handle method

def contents (m : MemoryBackend) : Contents where
  value handle := (m.valueData handle.name).lookup handle.key
  list handle := (m.listData handle.name).getAll handle.key

def Filled (m : MemoryBackend) : Prop := ∀ name, (m.listData name).Filled

theorem valueData_putValue (m : MemoryBackend) (name other : Bytes)
    (data : ValueState Bytes Bytes) :
    (m.putValue name data).valueData other = if other = name then data else m.valueData other := by
  by_cases same : other = name
  · subst same
    simp [putValue, valueData]
  · simp [putValue, valueData, lookup_insert_ne same, same]

theorem listData_putList (m : MemoryBackend) (name other : Bytes) (data : ListState Bytes Bytes) :
    (m.putList name data).listData other = if other = name then data else m.listData other := by
  by_cases same : other = name
  · subst same
    simp [putList, listData]
  · simp [putList, listData, lookup_insert_ne same, same]

theorem contents_putValue (m : MemoryBackend) (name : Bytes) (data : ValueState Bytes Bytes) :
    (m.putValue name data).contents =
      { m.contents with value := fun other =>
          if other.name = name then data.lookup other.key else m.contents.value other } := by
  have each : ∀ handle : Handle, (m.putValue name data).contents.value handle =
      if handle.name = name then data.lookup handle.key else m.contents.value handle := by
    intro handle
    show AList.lookup handle.key ((m.putValue name data).valueData handle.name) = _
    rw [valueData_putValue]
    split <;> rfl
  exact congrArg (Contents.mk · m.contents.list) (funext each)

theorem contents_putList (m : MemoryBackend) (name : Bytes) (data : ListState Bytes Bytes) :
    (m.putList name data).contents =
      { m.contents with list := fun other =>
          if other.name = name then data.getAll other.key else m.contents.list other } := by
  have each : ∀ handle : Handle, (m.putList name data).contents.list handle =
      if handle.name = name then data.getAll handle.key else m.contents.list handle := by
    intro handle
    show ListState.getAll ((m.putList name data).listData handle.name) handle.key = _
    rw [listData_putList]
    split <;> rfl
  exact congrArg (Contents.mk m.contents.value) (funext each)

variable {m : MemoryBackend}

theorem Filled.putList (filled : m.Filled) (name : Bytes)
    {data : ListState Bytes Bytes} (held : data.Filled) : (m.putList name data).Filled := by
  intro other
  rw [listData_putList]
  split
  · exact held
  · exact filled other

theorem update_eq {β : Type} (f : Handle → β) (handle : Handle) (data : Bytes → β) (value : β)
    (kept : ∀ key, data key = if key = handle.key then value else f { handle with key }) :
    (fun other : Handle => if other.name = handle.name then data other.key else f other) =
      update f handle value := by
  funext other
  obtain ⟨name, key⟩ := other
  obtain ⟨ownName, ownKey⟩ := handle
  rw [update_apply, kept]
  by_cases names : name = ownName
  · subst names
    simp
  · have apart : ¬(⟨name, key⟩ : Handle) = ⟨ownName, ownKey⟩ :=
      fun same => names (Handle.mk.inj same).1
    rw [if_neg names, if_neg apart]

theorem callValue_spec (filled : m.Filled) (handle : Handle) (method : ValueMethod) :
    (m.callValue handle method).1.contents = m.contents.next (.value handle method) ∧
      (m.callValue handle method).1.Filled ∧
      m.contents.Answers (.value handle method) (m.callValue handle method).2 := by
  cases method with
  | get => exact ⟨rfl, filled, .get handle⟩
  | set value =>
    have written : ∀ key, ((m.valueData handle.name).insert handle.key value).lookup key =
        if key = handle.key then some value else m.contents.value { handle with key } := by
      intro key
      by_cases same : key = handle.key
      · subst same
        simp
      · rw [lookup_insert_ne same, if_neg same]
        rfl
    refine ⟨?_, filled, .set handle value⟩
    rw [callValue, contents_putValue]
    exact congrArg (Contents.mk · m.contents.list) (update_eq _ handle _ _ written)
  | clear =>
    have cleared : ∀ key, ((m.valueData handle.name).erase handle.key).lookup key =
        if key = handle.key then none else m.contents.value { handle with key } := by
      intro key
      by_cases same : key = handle.key
      · subst same
        simp
      · rw [lookup_erase_ne same, if_neg same]
        rfl
    refine ⟨?_, ?_, .clear handle⟩
    · simp only [callValue]
      split
      · rw [contents_putValue]
        exact congrArg (Contents.mk · m.contents.list) (update_eq _ handle _ _ cleared)
      · next absent =>
        have empty : m.contents.value handle = none := by
          have none : m.value.lookup handle.name = none := by simpa using absent
          simp [contents, valueData, none]
        have same : update m.contents.value handle none = m.contents.value := by
          rw [← empty, update_eq_self]
        simp only [Contents.next, same]
    · simp only [callValue]
      split <;> exact filled
  | keys =>
    refine ⟨rfl, filled, .keys handle _ fun key => ?_⟩
    rw [← AList.mem_keys]
    exact lookup_isSome.symm
  | snapshotAll => exact ⟨rfl, filled, .snapshotAll handle _ fun key => rfl⟩
  | restoreAll entries =>
    refine ⟨?_, filled, .restoreAll handle entries⟩
    rw [callValue, contents_putValue]
    rfl

theorem callList_spec (filled : m.Filled) (handle : Handle) (method : ListMethod) :
    (m.callList handle method).1.contents = m.contents.next (.list handle method) ∧
      (m.callList handle method).1.Filled ∧
      m.contents.Answers (.list handle method) (m.callList handle method).2 := by
  cases method with
  | append value =>
    refine ⟨?_, filled.putList _ ((filled handle.name).append _ _), .append handle value⟩
    rw [callList, contents_putList]
    refine congrArg (Contents.mk m.contents.value) (update_eq _ handle _ _ fun key => ?_)
    exact ListState.getAll_append _ _ _ _
  | getAll => exact ⟨rfl, filled, .getAll handle⟩
  | clear =>
    refine ⟨?_, ?_, .clearList handle⟩
    · simp only [callList]
      split
      · rw [contents_putList]
        refine congrArg (Contents.mk m.contents.value) (update_eq _ handle _ _ fun key => ?_)
        exact ListState.getAll_clear _ _ _
      · next absent =>
        have empty : m.contents.list handle = [] := by
          have none : m.list.lookup handle.name = none := by simpa using absent
          simp [contents, listData, none, ListState.getAll]
        have same : update m.contents.list handle [] = m.contents.list := by
          rw [← empty, update_eq_self]
        simp only [Contents.next, same]
    · simp only [callList]
      split
      · exact filled.putList _ ((filled handle.name).clear _)
      · exact filled
  | keys =>
    refine ⟨rfl, filled, .keysList handle _ fun key => ?_⟩
    rw [← AList.mem_keys, ← lookup_isSome]
    show _ ↔ ((m.listData handle.name).lookup key).getD [] ≠ []
    cases found : (m.listData handle.name).lookup key with
    | none => simp
    | some held =>
      have some : held ≠ [] := by
        rintro rfl
        exact filled handle.name key found
      simpa using some

theorem open_spec (filled : m.Filled) (name : Bytes) :
    (m.valueState name).contents = m.contents ∧ (m.valueState name).Filled ∧
      (m.listState name).contents = m.contents ∧ (m.listState name).Filled := by
  refine ⟨?_, ?_, ?_, ?_⟩
  · rw [valueState]
    split
    · next absent =>
      have none : m.value.lookup name = none := isNone_iff_eq_none.1 absent
      rw [contents_putValue]
      refine congrArg (Contents.mk · m.contents.list) (funext fun other => ?_)
      obtain ⟨otherName, key⟩ := other
      by_cases same : otherName = name
      · subst same
        simp [valueData, none]
      · exact if_neg same
    · rfl
  · rw [valueState]
    split <;> exact filled
  · rw [listState]
    split
    · next absent =>
      have none : m.list.lookup name = none := isNone_iff_eq_none.1 absent
      rw [contents_putList]
      refine congrArg (Contents.mk m.contents.value) (funext fun other => ?_)
      obtain ⟨otherName, key⟩ := other
      by_cases same : otherName = name
      · subst same
        simp [listData, none]
      · exact if_neg same
    · rfl
  · rw [listState]
    split
    · exact filled.putList _ fun key => by simp
    · exact filled

theorem call_spec (filled : m.Filled) (call : Call) :
    (backend.call m call).1.contents = m.contents.next call ∧ (backend.call m call).1.Filled ∧
      m.contents.Answers call (backend.call m call).2 := by
  cases call with
  | valueState name =>
    obtain ⟨same, kept, _⟩ := open_spec filled name
    exact ⟨same, kept, .valueState name⟩
  | listState name =>
    obtain ⟨_, _, same, kept⟩ := open_spec filled name
    exact ⟨same, kept, .listState name⟩
  | value handle method => exact callValue_spec filled handle method
  | list handle method => exact callList_spec filled handle method

end MemoryBackend

end Weibo.State
