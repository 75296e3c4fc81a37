import Weibo.State.PebbleStores

/-!
# The Pebble backend against the memory backend

Every sequence of calls gets the same replies from both backends exactly when the namespaces and
keys in use do not overlap. Keys without NUL bytes never do; a key that holds another one followed
by a NUL byte does.
-/

namespace Weibo.State

open List Function

open ByteOrder (bigEndian)

def appends (calls : List Call) (handle : Handle) : Nat := calls.countP (Call.appends handle)

theorem appends_cons (call : Call) (calls : List Call) (handle : Handle) :
    appends (call :: calls) handle = (call.appends handle).toNat + appends calls handle := by
  rw [appends, countP_cons, Nat.add_comm]
  cases call.appends handle <;> rfl

theorem Call.Within.of_appends {scope : Scope} {call : Call} {handle : Handle}
    (within : call.Within scope) (adds : call.appends handle = true) : handle ∈ scope.lists := by
  cases call with
  | list other method =>
    cases method with
    | append value =>
      have same : other = handle := by simpa [Call.appends] using adds
      exact same ▸ within
    | _ => exact absurd adds (by rintro ⟨⟩)
  | _ => exact absurd adds (by rintro ⟨⟩)

/-! ## Keys without NUL bytes -/

theorem eq_of_ended {first second rest : Bytes} (own : 0 ∉ first) (other : 0 ∉ second)
    (begins : first ++ [0] <+: second ++ 0 :: rest) : first = second := by
  induction first generalizing second with
  | nil =>
    cases second with
    | nil => rfl
    | cons byte second =>
      have zero : 0 = byte := (cons_prefix_cons.1 begins).1
      exact absurd (zero ▸ mem_cons_self) other
  | cons byte first ih =>
    cases second with
    | nil =>
      have zero : byte = 0 := (cons_prefix_cons.1 begins).1
      exact absurd (zero ▸ mem_cons_self) own
    | cons head second =>
      obtain ⟨same, begins⟩ := cons_prefix_cons.1 begins
      rw [same, ih (not_mem_of_not_mem_cons own) (not_mem_of_not_mem_cons other) begins]

/-- Namespaces none of which, ended by a NUL byte, begins another one. All namespaces without NUL
bytes are, and every single one is. -/
def Separate (names : Set Bytes) : Prop :=
  ∀ own ∈ names, ∀ other ∈ names, own ++ [0] <+: other ++ [0] → own = other

theorem separate_of_nulFree {names : Set Bytes}
    (nulFree : ∀ name ∈ names, 0 ∉ name) : Separate names :=
  fun own mem other otherMem begins => eq_of_ended (nulFree own mem) (nulFree other otherMem) begins

theorem Separate.eq {names : Set Bytes} (separate : Separate names) {own other rest : Bytes}
    (mem : own ∈ names) (otherMem : other ∈ names)
    (begins : own ++ [0] <+: other ++ 0 :: rest) : own = other := by
  have starts : other ++ [0] <+: other ++ 0 :: rest := ⟨rest, by simp⟩
  rcases prefix_or_prefix_of_prefix begins starts with forth | back
  · exact separate own mem other otherMem forth
  · exact (separate other otherMem own mem back).symm

theorem Separate.apart {names : Set Bytes} (separate : Separate names) {scope : Scope}
    (values : ∀ handle ∈ scope.values, handle.name ∈ names)
    (lists : ∀ handle ∈ scope.lists, handle.name ∈ names ∧ 0 ∉ handle.key) : Apart scope := by
  have same : ∀ own ∈ scope.lists, ∀ other ∈ scope.lists, ∀ seq,
      listNamespacePrefix own.name <+: listEntryKey other.name other.key seq →
        own.name = other.name := by
    intro own mem other otherMem seq begins
    rw [listNamespacePrefix, listEntryKey, append_assoc, append_assoc, append_assoc,
      append_assoc, append_assoc, prefix_append_right_inj] at begins
    exact separate.eq (lists own mem).1 (lists other otherMem).1 begins
  refine ⟨?_, ?_,
    fun own mem other otherMem seq _ begins _ => same own mem other otherMem seq begins⟩
  · intro own mem other otherMem begins
    rw [valuePrefixBytes, valueUserKey, valueUserKey, append_nil, append_assoc,
      append_assoc, append_assoc, prefix_append_right_inj] at begins
    exact separate.eq (values own mem) (values other otherMem) begins
  · intro own mem other otherMem seq _ begins
    have equal := same own mem other otherMem seq ((listNamespacePrefix_begins _ _).trans begins)
    rw [listPrefixBytes_eq, listEntryKey, equal, append_assoc _ own.key,
      append_assoc _ _ (bigEndian 8 seq), append_assoc _ other.key,
      prefix_append_right_inj] at begins
    have keys := eq_of_ended (lists own mem).2 (lists other otherMem).2 begins
    obtain ⟨name, key⟩ := own
    obtain ⟨otherName, otherKey⟩ := other
    exact Handle.mk.injEq .. ▸ ⟨equal, keys⟩

/-! ## Runs -/

theorem Stores.run {scope : Scope} (apart : Apart scope) {calls : List Call}
    {next : Handle → Nat} {p : PebbleBackend} {contents : Contents}
    (stores : Stores scope next p contents) (within : ∀ call ∈ calls, call.Within scope)
    (fits : ∀ handle, next handle + appends calls handle < 2 ^ 64) : (∃ after : Handle → Nat,
      Stores scope after (PebbleBackend.backend.after p calls) (contents.after calls) ∧
        ∀ handle, after handle ≤ next handle + appends calls handle) ∧
    ∀ m : MemoryBackend, m.Filled → m.contents = contents →
      List.Forall₂ Reply.Same (PebbleBackend.backend.replies p calls)
        (MemoryBackend.backend.replies m calls) := by
  induction calls generalizing next p contents with
  | nil => exact ⟨⟨next, stores, fun _ => Nat.le_refl _⟩, fun _ _ _ => .nil⟩
  | cons call calls ih =>
    obtain ⟨here, later⟩ := forall_mem_cons.1 within
    have number : ∀ handle, call.appends handle = true → p.nextSeq handle + 1 < 2 ^ 64 := by
      intro handle adds
      have small := (Stores.nextSeq_spec apart stores (here.of_appends adds)).1
      have limit := fits handle
      rw [appends_cons, adds, Bool.toNat_true] at limit
      omega
    obtain ⟨after, kept, answers, grown⟩ := Stores.call_spec apart stores here number
    have left : ∀ handle, after handle + appends calls handle < 2 ^ 64 := by
      intro handle
      have limit := fits handle
      have growth := grown handle
      rw [appends_cons] at limit
      omega
    obtain ⟨⟨final, held, most⟩, agree⟩ := ih kept later left
    refine ⟨⟨final, held, fun handle => ?_⟩, fun m filled same => ?_⟩
    · have growth := grown handle
      have rest := most handle
      rw [appends_cons]
      omega
    · obtain ⟨moved, refilled, replied⟩ := MemoryBackend.call_spec filled call
      rw [same] at moved replied
      exact .cons (answers.same replied) (agree _ refilled moved)

theorem MemoryBackend.start : ({} : MemoryBackend).Filled ∧ ({} : MemoryBackend).contents = {} := by
  constructor
  · intro name key
    simp [MemoryBackend.listData]
  · rfl

theorem MemoryBackend.run (calls : List Call) {m : MemoryBackend} (filled : m.Filled) :
    (backend.after m calls).Filled ∧ (backend.after m calls).contents = m.contents.after calls := by
  induction calls generalizing m with
  | nil => exact ⟨filled, rfl⟩
  | cons call calls ih =>
    obtain ⟨moved, refilled, _⟩ := call_spec filled call
    obtain ⟨last, same⟩ := ih refilled
    refine ⟨last, ?_⟩
    rw [moved] at same
    exact same

/-! ## What follows from agreement -/

theorem Reply.Same.mem_keys {first second : List Bytes} (same : Same (.keys first) (.keys second))
    (key : Bytes) : key ∈ first ↔ key ∈ second := by
  cases same with
  | keys same => exact same key

theorem answers_of_agree {calls : List Call} {call : Call}
    (agree : List.Forall₂ Reply.Same (PebbleBackend.backend.replies {} (calls ++ [call]))
      (MemoryBackend.backend.replies {} (calls ++ [call]))) :
    ∃ reply, Contents.Answers (Contents.after {} calls) call reply ∧
      Reply.Same
        (PebbleBackend.backend.call (PebbleBackend.backend.after {} calls) call).2 reply := by
  obtain ⟨filled, empty⟩ := MemoryBackend.start
  obtain ⟨last, held⟩ := MemoryBackend.run calls filled
  obtain ⟨_, _, answers⟩ := MemoryBackend.call_spec last call
  rw [held, empty] at answers
  refine ⟨_, answers, ?_⟩
  rw [StateBackend.replies_append, StateBackend.replies_append] at agree
  have ends := forall₂_drop calls.length agree
  rw [drop_left' (StateBackend.length_replies _ _ _),
    drop_left' (StateBackend.length_replies _ _ _)] at ends
  exact (forall₂_cons.1 ends).1

theorem apart_singleton (handle : Handle) : Apart ⟨∅, {handle}⟩ where
  values _ mem := absurd mem (Set.notMem_empty _)
  lists own mem other otherMem _ _ _ := by
    rw [Set.mem_singleton_iff.1 mem, Set.mem_singleton_iff.1 otherMem]
  names own mem other otherMem _ _ _ _ := by
    rw [Set.mem_singleton_iff.1 mem, Set.mem_singleton_iff.1 otherMem]

theorem after_appends (contents : Contents) (handle : Handle) (value : Bytes) (count : Nat) :
    contents.after (replicate count (.list handle (.append value))) =
      ⟨contents.value, update contents.list handle
        (contents.list handle ++ replicate count value)⟩ := by
  induction count generalizing contents with
  | zero => simp [Contents.after]
  | succ count ih =>
    have step : contents.after (replicate (count + 1) (.list handle (.append value))) =
        (contents.next (.list handle (.append value))).after
          (replicate count (.list handle (.append value))) := rfl
    rw [step, ih]
    simp [Contents.next, replicate_succ]

theorem calls_replicate {handles : Handles} {index : Nat} {handle : Handle} {method : ListMethod}
    (found : handles.lists[index]? = some handle) (count : Nat) (ops : List Op) :
    handles.calls (replicate count (.list index method) ++ ops) =
      replicate count (.list handle method) ++ handles.calls ops := by
  induction count with
  | zero => rfl
  | succ count ih =>
    rw [replicate_succ, cons_append, Handles.calls, found, ih]
    rfl

theorem stored_after_appends (handle : Handle) {seq : Nat} (fits : seq + 1 < 2 ^ 64) :
    (PebbleBackend.backend.after {} (replicate (seq + 1) (.list handle (.append [])))).closed =
      false ∧
    (listEntryKey handle.name handle.key seq, []) ∈ (PebbleBackend.backend.after {}
      (replicate (seq + 1) (.list handle (.append [])))).db.entries := by
  have counted : ∀ other, appends (replicate (seq + 1) (.list handle (.append []))) other =
      if handle = other then seq + 1 else 0 := by
    intro other
    rw [appends, countP_replicate]
    simp [Call.appends]
  have within : ∀ call ∈ replicate (seq + 1) (Call.list handle (.append [])),
      call.Within ⟨∅, {handle}⟩ := by
    intro call mem
    rw [eq_of_mem_replicate mem]
    exact Set.mem_singleton handle
  have limit : ∀ other,
      0 + appends (replicate (seq + 1) (.list handle (.append []))) other < 2 ^ 64 := by
    intro other
    rw [counted, Nat.zero_add]
    split <;> omega
  obtain ⟨⟨after, stores, most⟩, _⟩ :=
    (stores_start _).run (apart_singleton handle) within limit
  have held : (Contents.after {} (replicate (seq + 1) (.list handle (.append [])))).list handle =
      replicate (seq + 1) [] := by
    rw [after_appends]
    exact update_self handle _ _
  have room := stores.room handle
  have last := most handle
  rw [held, length_replicate] at room
  rw [counted, if_pos rfl, Nat.zero_add] at last
  refine ⟨stores.opened, (stores.list handle rfl seq fits []).2 ⟨seq, ?_, ?_⟩⟩
  · rw [held, getElem?_replicate, if_pos (Nat.lt_succ_self seq)]
  · rw [held, length_replicate]
    omega

/-- Both backends give the same replies to everything that is done with the given namespaces and
keys, as long as no list is appended to `2 ^ 64` times. -/
def Agree (scope : Scope) : Prop :=
  ∀ ops : List Op, (∀ call ∈ Handles.calls {} ops, call.Within scope) →
    (∀ handle, appends (Handles.calls {} ops) handle < 2 ^ 64) →
    List.Forall₂ Reply.Same (PebbleBackend.backend.replies {} (Handles.calls {} ops))
      (MemoryBackend.backend.replies {} (Handles.calls {} ops))

theorem Agree.values {scope : Scope} (agree : Agree scope) {own other : Handle}
    (mem : own ∈ scope.values) (otherMem : other ∈ scope.values) (begins :
    valuePrefixBytes own.name <+: valueUserKey other.name other.key) : own.name = other.name := by
  -- A value is set under one handle, and the keys of the other handle's namespace are listed.
  let before : List Call := [.valueState other.name, .value other (.set []), .valueState own.name]
  have same := agree [.valueState other.name, .setValueKey 0 other.key, .value 0 (.set []),
    .valueState own.name, .setValueKey 1 own.key, .value 1 .keys]
  have calls : Handles.calls {} [.valueState other.name, .setValueKey 0 other.key,
      .value 0 (.set []), .valueState own.name, .setValueKey 1 own.key, .value 1 .keys] =
      before ++ [.value own .keys] := rfl
  rw [calls] at same
  have within : ∀ call ∈ before ++ [.value own .keys], call.Within scope := by
    simp [before, Call.Within, mem, otherMem]
  have few : ∀ handle, appends (before ++ [.value own .keys]) handle < 2 ^ 64 := by
    simp [before, appends, Call.appends]
  obtain ⟨reply, answers, last⟩ := answers_of_agree (same within few)
  have stored : (valueUserKey other.name other.key, []) ∈
      (PebbleBackend.backend.after {} before).db.entries := OrderedMap.mem_set.2 (.inl rfl)
  have scanned := Stores.mem_scan_values.2 ⟨stored, begins⟩
  cases answers with
  | keys _ keys listed =>
    have found := (last.mem_keys _).1 (mem_map_of_mem scanned)
    have held := (listed _).1 found
    by_contra names
    have differs : (⟨own.name, valueUserKeyFromFull own.name
        (valueUserKey other.name other.key)⟩ : Handle) ≠ other :=
      fun equal => names (congrArg Handle.name equal :)
    have empty : (Contents.after {} before).value ⟨own.name, valueUserKeyFromFull own.name
        (valueUserKey other.name other.key)⟩ = none := update_of_ne differs _ _
    rw [empty] at held
    exact absurd held (by rintro ⟨⟩)

theorem Agree.reads {scope : Scope} (agree : Agree scope) {own other : Handle}
    (mem : own ∈ scope.lists) (otherMem : other ∈ scope.lists) {seq : Nat}
    (fits : seq + 1 < 2 ^ 64) {method : ListMethod} (reading : ∀ value, method ≠ .append value) :
    ∃ reply, Contents.Answers ⟨fun _ => none, update (fun _ => []) other
        (replicate (seq + 1) [])⟩ (.list own method) reply ∧
          Reply.Same ((PebbleBackend.backend.after {}
        (replicate (seq + 1) (.list other (.append [])))).callList own method).2 reply := by
  let adds : List Call := replicate (seq + 1) (.list other (.append []))
  let before : List Call := .listState other.name :: (adds ++ [.listState own.name])
  let ops : List Op := .listState other.name :: .setListKey 0 other.key ::
    (replicate (seq + 1) (.list 0 (.append [])) ++
      [.listState own.name, .setListKey 1 own.key, .list 1 method])
  have found : (⟨[], [other]⟩ : Handles).lists[0]? = some other := rfl
  have calls : Handles.calls {} ops = before ++ [.list own method] := by
    show .listState other.name :: Handles.calls ⟨[], [other]⟩ _ = _
    rw [calls_replicate found]
    simp [before, adds, Handles.calls]
  have within : ∀ call ∈ before ++ [.list own method], call.Within scope := by
    intro call listed
    simp only [before, adds, cons_append, append_assoc, mem_cons, mem_append,
      mem_replicate, not_mem_nil, or_false, false_or] at listed
    rcases listed with rfl | ⟨_, rfl⟩ | rfl | rfl
    · trivial
    · exact otherMem
    · trivial
    · exact mem
  have few : ∀ handle, appends (before ++ [.list own method]) handle < 2 ^ 64 := by
    intro handle
    have last : Call.appends handle (.list own method) = false := by
      cases method with
      | append value => exact absurd rfl (reading value)
      | _ => rfl
    have opening : ∀ name, Call.appends handle (.listState name) = false := fun _ => rfl
    have count : appends (before ++ [.list own method]) handle ≤ seq + 1 := by
      simp only [appends, before, adds, countP_append, countP_cons, countP_nil,
        countP_replicate, last, opening]
      split <;> simp
    omega
  have same := agree ops
  rw [calls] at same
  obtain ⟨reply, answers, last⟩ := answers_of_agree (same within few)
  have contents : Contents.after {} before =
      ⟨fun _ => none, update (fun _ => []) other (replicate (seq + 1) [])⟩ := by
    show Contents.after {} (adds ++ [.listState own.name]) = _
    rw [Contents.after, foldl_append]
    exact after_appends {} other [] (seq + 1)
  have store : PebbleBackend.backend.after {} before = PebbleBackend.backend.after {} adds := by
    show PebbleBackend.backend.after {} (adds ++ [.listState own.name]) = _
    rw [StateBackend.after, foldl_append]
    rfl
  rw [contents] at answers
  rw [store] at last
  exact ⟨reply, answers, last⟩

theorem Agree.lists {scope : Scope} (agree : Agree scope) {own other : Handle}
    (mem : own ∈ scope.lists) (otherMem : other ∈ scope.lists) {seq : Nat} (fits : seq + 1 < 2 ^ 64)
    (begins : listPrefixBytes own.name own.key <+: listEntryKey other.name other.key seq) :
    own = other := by
  obtain ⟨opened, stored⟩ := stored_after_appends other fits
  have reading : ∀ value, ListMethod.getAll ≠ .append value := (by rintro _ ⟨⟩)
  obtain ⟨reply, answers, last⟩ := agree.reads mem otherMem fits reading
  have scanned := Stores.mem_scan_list.2 ⟨stored, begins⟩
  simp only [PebbleBackend.callList, opened, Bool.false_eq_true, if_false] at last
  by_contra differs
  have empty : Contents.list ⟨fun _ => none, update (fun _ => []) other
      (replicate (seq + 1) [])⟩ own = [] := by
    simp only [update_of_ne differs]
  cases answers
  rw [empty] at last
  have element := mem_map_of_mem (f := Prod.snd) scanned
  generalize map Prod.snd _ = values at last element
  cases last
  exact absurd element (by rintro ⟨⟩)

theorem Agree.names {scope : Scope} (agree : Agree scope) {own other : Handle}
    (mem : own ∈ scope.lists) (otherMem : other ∈ scope.lists) {seq : Nat} (fits : seq + 1 < 2 ^ 64)
    (begins : listNamespacePrefix own.name <+: listEntryKey other.name other.key seq)
    (long : (listNamespacePrefix own.name).length + 9 ≤
      (listEntryKey other.name other.key seq).length) : own.name = other.name := by
  obtain ⟨opened, stored⟩ := stored_after_appends other fits
  have reading : ∀ value, ListMethod.keys ≠ .append value := (by rintro _ ⟨⟩)
  obtain ⟨reply, answers, last⟩ := agree.reads mem otherMem fits reading
  have scanned := Stores.mem_scan_names.2 ⟨stored, begins⟩
  simp only [PebbleBackend.callList, opened, Bool.false_eq_true, if_false] at last
  by_contra names
  cases answers with
  | keysList _ keys listed =>
    have found := (last.mem_keys _).1 (Stores.mem_listKeys.2 (.inr ⟨_, scanned, long, rfl⟩))
    have held := (listed _).1 found
    have differs : ∀ key, (⟨own.name, key⟩ : Handle) ≠ other :=
      fun key equal => names (congrArg Handle.name equal :)
    apply held
    simp only [update_of_ne (differs _)]

/-- Both backends give the same replies exactly when the namespaces and keys in use do not
overlap. -/
theorem pebble_refines_memory_iff (scope : Scope) : Agree scope ↔ Apart scope := by
  constructor
  · intro agree
    exact ⟨fun _ mem _ otherMem => agree.values mem otherMem,
      fun _ mem _ otherMem _ fits => agree.lists mem otherMem fits,
      fun _ mem _ otherMem _ fits => agree.names mem otherMem fits⟩
  · intro apart ops within few
    obtain ⟨filled, empty⟩ := MemoryBackend.start
    have limit : ∀ handle, 0 + appends (Handles.calls {} ops) handle < 2 ^ 64 := by
      intro handle
      rw [Nat.zero_add]
      exact few handle
    exact ((stores_start scope).run apart within limit).2 {} filled empty

def joinLeftNS : Bytes := [106, 111, 105, 110, 95, 108, 101, 102, 116]

/-- A record with the key `a`, NUL, `b` is stored, and the records with the key `a` are read. -/
def shorterKeyReads : List Op :=
  [.listState joinLeftNS, .setListKey 0 [97, 0, 98], .list 0 (.append [120]),
    .setListKey 0 [97], .list 0 .getAll]

/-- The Pebble backend returns what is stored under the longer key, the memory backend nothing. -/
theorem shorter_key_reads_longer :
    PebbleBackend.backend.replies {} (Handles.calls {} shorterKeyReads) =
        [.done, .done, .values [[120]]] ∧
      MemoryBackend.backend.replies {} (Handles.calls {} shorterKeyReads) =
        [.done, .done, .values []] := by
  constructor
  · rfl
  · rfl

end Weibo.State
