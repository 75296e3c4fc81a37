import Weibo.State.Pebble

/-!
# What the Pebble store holds

`Stores` relates the byte-ordered store of a Pebble backend to the contents it stands for. Every
method keeps this relation and answers as the contents do, as long as namespaces and keys do not
overlap and an appended element gets a number that is left.
-/

namespace Weibo.State

open Function

open ByteOrder (bigEndian ofBigEndian)
open OrderedMap (mem_delete mem_deleteRange mem_range mem_set not_mem_empty range_eq)
open PebbleBackend (callList callValue listKeys nextListSeq nextSeq)

/-! ## Entries -/

/-- The `seq`-th element ever appended to a list is still there: the last one has the number
before `next`. -/
def Slot (list : List Bytes) (next seq : Nat) (value : Bytes) : Prop :=
  ∃ i, list[i]? = some value ∧ seq + list.length = next + i

theorem Slot.lt {list : List Bytes} {next seq : Nat} {value : Bytes}
    (slot : Slot list next seq value) : seq < next := by
  obtain ⟨i, found, place⟩ := slot
  have bound : i < list.length := (List.getElem?_eq_some_iff.1 found).1
  omega

structure Stores (scope : Scope) (next : Handle → Nat) (p : PebbleBackend) (contents : Contents) :
    Prop where
  opened : p.closed = false
  value : ∀ handle ∈ scope.values, ∀ value,
    (valueUserKey handle.name handle.key, value) ∈ p.db.entries ↔ contents.value handle = some value
  list : ∀ handle ∈ scope.lists, ∀ seq, seq + 1 < 2 ^ 64 → ∀ value,
    (listEntryKey handle.name handle.key seq, value) ∈ p.db.entries ↔
      Slot (contents.list handle) (next handle) seq value
  known : ∀ full value, (full, value) ∈ p.db.entries →
    (∃ handle ∈ scope.values, full = valueUserKey handle.name handle.key) ∨
    ∃ handle ∈ scope.lists, ∃ seq, seq + 1 < 2 ^ 64 ∧ full = listEntryKey handle.name handle.key seq
  values : ∀ handle, contents.value handle ≠ none → handle ∈ scope.values
  lists : ∀ handle, contents.list handle ≠ [] → handle ∈ scope.lists
  room : ∀ handle, (contents.list handle).length ≤ next handle
  bound : ∀ handle, next handle < 2 ^ 64
  seeded : ∀ handle seq, p.seqs.lookup handle = some seq → seq = next handle

theorem stores_start (scope : Scope) : Stores scope (fun _ => 0) {} {} where
  opened := rfl
  value handle _ value := by
    constructor
    · exact fun mem => absurd mem (not_mem_empty _)
    · rintro ⟨⟩
  list handle _ seq _ value := by
    constructor
    · exact fun mem => absurd mem (not_mem_empty _)
    · exact fun slot => absurd slot.lt (Nat.not_lt_zero _)
  known full value mem := absurd mem (not_mem_empty _)
  values handle some := absurd rfl some
  lists handle some := absurd rfl some
  room handle := Nat.le_refl 0
  bound handle := by decide
  seeded handle seq found := absurd found (by rintro ⟨⟩)

theorem Apart.value_eq {scope : Scope} (apart : Apart scope) {own other : Handle}
    (mem : own ∈ scope.values) (otherMem : other ∈ scope.values)
    (same : valueUserKey own.name own.key = valueUserKey other.name other.key) : own = other := by
  have begins : valuePrefixBytes own.name <+: valueUserKey other.name other.key := by
    rw [← same]
    exact valuePrefixBytes_begins _ _
  have names := apart.values own mem other otherMem begins
  obtain ⟨name, key⟩ := own
  obtain ⟨otherName, otherKey⟩ := other
  obtain rfl : name = otherName := names
  have keys := congrArg (valueUserKeyFromFull name) same
  rw [valueUserKeyFromFull_valueUserKey, valueUserKeyFromFull_valueUserKey] at keys
  exact congrArg (Handle.mk name) keys

theorem Apart.list_eq {scope : Scope} (apart : Apart scope) {own other : Handle}
    (mem : own ∈ scope.lists) (otherMem : other ∈ scope.lists) {seq otherSeq : Nat}
    (fits : seq + 1 < 2 ^ 64) (otherFits : otherSeq + 1 < 2 ^ 64) (same : listEntryKey own.name
    own.key seq = listEntryKey other.name other.key otherSeq) : own = other ∧ seq = otherSeq := by
  have begins :
    listPrefixBytes own.name own.key <+: listEntryKey other.name other.key otherSeq := by
    rw [← same]
    exact listPrefixBytes_begins _ _ _
  have handles := apart.lists own mem other otherMem otherSeq otherFits begins
  subst handles
  exact ⟨rfl, listEntryKey_seq (Nat.lt_of_succ_lt fits) (Nat.lt_of_succ_lt otherFits) same⟩

namespace Stores

variable {scope : Scope} {next : Handle → Nat} {p : PebbleBackend} {contents : Contents}

/-! ### Lists -/

variable {name full value : Bytes}

theorem mem_scan_list {p : PebbleBackend} {key : Bytes} :
    (full, value) ∈ p.scan (listPrefixBytes name key) ↔
      (full, value) ∈ p.db.entries ∧ listPrefixBytes name key <+: full := by
  rw [PebbleBackend.scan, mem_range, listPrefixBytes_eq, inRange_iff]

variable {handle : Handle}

theorem own_of_begins (apart : Apart scope) (stores : Stores scope next p contents)
    (mem : handle ∈ scope.lists) (entry : (full, value) ∈ p.db.entries)
    (begins : listPrefixBytes handle.name handle.key <+: full) :
    ∃ seq, seq + 1 < 2 ^ 64 ∧ full = listEntryKey handle.name handle.key seq := by
  rcases stores.known full value entry with ⟨other, _, rfl⟩ | ⟨other, inside, seq, fits, rfl⟩
  · exact absurd ((listNamespacePrefix_begins _ _).trans begins)
      (not_listNamespacePrefix_valueUserKey _ _ _)
  · have same : handle = other := apart.lists handle mem other inside seq fits begins
    subst same
    exact ⟨seq, fits, rfl⟩

theorem scan_list (apart : Apart scope) (stores : Stores scope next p contents)
    (mem : handle ∈ scope.lists) :
    p.scan (listPrefixBytes handle.name handle.key) = (contents.list handle).zipIdx.map
      fun element =>
        (listEntryKey handle.name handle.key
          (next handle - (contents.list handle).length + element.2), element.1) := by
  have room := stores.room handle
  have bound := stores.bound handle
  apply range_eq
  · apply List.pairwise_map.2
    have indices : ((contents.list handle).zipIdx).Pairwise fun first second =>
        first.2 < second.2 ∧ second.2 < (contents.list handle).length := by
      apply List.pairwise_iff_getElem.2
      intro i j _ short less
      rw [List.length_zipIdx] at short
      simpa only [List.getElem_zipIdx, Nat.zero_add] using ⟨less, short⟩
    apply indices.imp
    intro first second ordered
    exact listEntryKey_lt _ _ (by omega) (by omega)
  · rintro ⟨full, value⟩
    rw [← mem_range]
    show _ ↔ (full, value) ∈ p.scan _
    rw [mem_scan_list, List.mem_map]
    constructor
    · rintro ⟨⟨element, i⟩, listed, same⟩
      obtain ⟨rfl, rfl⟩ := Prod.mk.inj same
      have found : (contents.list handle)[i]? = some element :=
        List.mem_zipIdx_iff_getElem?.1 listed
      have short : i < (contents.list handle).length := (List.getElem?_eq_some_iff.1 found).1
      refine ⟨(stores.list handle mem _ (by omega) _).2 ⟨i, found, by dsimp only; omega⟩, ?_⟩
      exact listPrefixBytes_begins _ _ _
    · rintro ⟨entry, begins⟩
      obtain ⟨seq, fits, rfl⟩ := own_of_begins apart stores mem entry begins
      obtain ⟨i, found, place⟩ := (stores.list handle mem seq fits value).1 entry
      refine ⟨(value, i), List.mem_zipIdx_iff_getElem?.2 found, ?_⟩
      have number : next handle - (contents.list handle).length + i = seq := by omega
      rw [number]

theorem nextListSeq_eq (apart : Apart scope) (stores : Stores scope next p contents)
    (mem : handle ∈ scope.lists) : p.nextListSeq handle.name handle.key = if contents.list handle =
    [] then 0 else next handle := by
  have room := stores.room handle
  have bound := stores.bound handle
  rw [nextListSeq, scan_list apart stores mem]
  rcases List.eq_nil_or_concat (contents.list handle) with empty | ⟨front, last, list⟩
  · rw [empty]
    rfl
  · rw [list, List.concat_eq_append] at room ⊢
    rw [List.length_append, List.length_singleton] at room
    have filled : front ++ [last] ≠ [] := List.append_ne_nil_of_right_ne_nil _ (by rintro ⟨⟩)
    have number : next handle - (front.length + 1) + (0 + front.length) + 1 = next handle := by
      omega
    simp only [List.zipIdx_append, List.map_append, List.zipIdx_singleton, List.map_cons,
      List.map_nil, List.getLast?_concat, List.length_append, List.length_singleton]
    rw [ofBigEndian_listEntryKey _ _ (by omega), number, Nat.mod_eq_of_lt bound, if_neg filled]

theorem getAll_eq (apart : Apart scope) (stores : Stores scope next p contents)
    (mem : handle ∈ scope.lists) :
    (p.callList handle .getAll).2 = .values (contents.list handle) := by
  simp only [callList, stores.opened, Bool.false_eq_true, if_false,
    scan_list apart stores mem, List.map_map]
  congr 1
  exact List.zipIdx_map_fst 0 (contents.list handle)

theorem nextSeq_spec (apart : Apart scope) (stores : Stores scope next p contents)
    (mem : handle ∈ scope.lists) : p.nextSeq handle ≤ next handle ∧
    (contents.list handle ≠ [] → p.nextSeq handle = next handle) := by
  rw [nextSeq]
  split
  · next seq counted =>
    have same := stores.seeded handle seq counted
    exact ⟨same.le, fun _ => same⟩
  · rw [nextListSeq_eq apart stores mem]
    split
    · next empty => exact ⟨Nat.zero_le _, fun filled => absurd empty filled⟩
    · exact ⟨Nat.le_refl _, fun _ => rfl⟩

theorem append_fresh (apart : Apart scope) (stores : Stores scope next p contents)
    (mem : handle ∈ scope.lists) (fits : p.nextSeq handle + 1 < 2 ^ 64) (value : Bytes) :
    (listEntryKey handle.name handle.key (p.nextSeq handle), value) ∉ p.db.entries := by
  intro entry
  have slot := (stores.list handle mem _ fits value).1 entry
  have before := slot.lt
  obtain ⟨i, found, _⟩ := slot
  have filled : contents.list handle ≠ [] := by
    intro empty
    rw [empty] at found
    exact absurd found (by rintro ⟨⟩)
  rw [(nextSeq_spec apart stores mem).2 filled] at before
  exact absurd before (Nat.lt_irrefl _)

theorem slot_append {list : List Bytes} {last seq : Nat} {number : Nat} {element : Bytes}
    (continues : list ≠ [] → number = last) : Slot (list ++ [element]) (number + 1) seq value ↔
      seq = number ∧ element = value ∨ Slot list last seq value := by
  constructor
  · rintro ⟨i, found, place⟩
    rw [List.length_append, List.length_singleton] at place
    rcases Nat.lt_or_ge i list.length with short | long
    · rw [List.getElem?_append_left short] at found
      have same := continues (List.ne_nil_of_length_pos (Nat.zero_lt_of_lt short))
      exact .inr ⟨i, found, by omega⟩
    · rw [List.getElem?_append_right long, List.getElem?_singleton] at found
      have zero : i - list.length = 0 := by
        by_contra more
        rw [if_neg more] at found
        exact absurd found (by rintro ⟨⟩)
      rw [if_pos zero] at found
      exact .inl ⟨by omega, Option.some.inj found⟩
  · rintro (⟨rfl, rfl⟩ | ⟨i, found, place⟩)
    · refine ⟨list.length, by simp, ?_⟩
      rw [List.length_append, List.length_singleton]
      omega
    · have short : i < list.length := (List.getElem?_eq_some_iff.1 found).1
      have same := continues (List.ne_nil_of_length_pos (Nat.zero_lt_of_lt short))
      refine ⟨i, by rw [List.getElem?_append_left short, found], ?_⟩
      rw [List.length_append, List.length_singleton]
      omega

theorem append (apart : Apart scope) (stores : Stores scope next p contents)
    (mem : handle ∈ scope.lists) (fits : p.nextSeq handle + 1 < 2 ^ 64) (value : Bytes) :
    Stores scope (update next handle (p.nextSeq handle + 1))
      (p.callList handle (.append value)).1 (contents.next (.list handle (.append value))) := by
  obtain ⟨_, continues⟩ := nextSeq_spec apart stores mem
  have called : (p.callList handle (.append value)).1 =
      { p with
        seqs := p.seqs.insert handle ((p.nextSeq handle + 1) % 2 ^ 64)
        db := p.db.set (listEntryKey handle.name handle.key (p.nextSeq handle)) value } := by
    simp [callList, stores.opened]
  rw [called]
  refine ⟨stores.opened, ?_, ?_, ?_, stores.values, ?_, ?_, ?_, ?_⟩
  · intro other inside stored
    have differs := valueUserKey_ne other.name other.key handle.name handle.key (p.nextSeq handle)
    rw [mem_set]
    simp only [Prod.mk.injEq, differs, false_and, false_or, ne_eq, not_false_eq_true, and_true]
    exact stores.value other inside stored
  · intro other inside seq otherFits stored
    rw [mem_set, stores.list other inside seq otherFits]
    by_cases same : other = handle
    · subst same
      simp only [Contents.next, update_self]
      rw [slot_append continues, Prod.mk.injEq]
      constructor
      · rintro (⟨key, rfl⟩ | ⟨slot, _⟩)
        · exact .inl ⟨(apart.list_eq mem mem otherFits fits key).2, rfl⟩
        · exact .inr slot
      · rintro (⟨rfl, rfl⟩ | slot)
        · exact .inl ⟨rfl, rfl⟩
        · refine .inr ⟨slot, fun key => ?_⟩
          have entry := (stores.list other mem seq otherFits stored).2 slot
          exact append_fresh apart stores mem fits stored (key ▸ entry)
    · have differs : listEntryKey other.name other.key seq ≠
          listEntryKey handle.name handle.key (p.nextSeq handle) :=
        fun key => same (apart.list_eq inside mem otherFits fits key).1
      simp [Contents.next, update_of_ne same, differs]
  · intro full stored entry
    rcases mem_set.1 entry with new | ⟨old, _⟩
    · exact .inr ⟨handle, mem, _, fits, (Prod.mk.inj new).1⟩
    · exact stores.known full stored old
  · intro other filled
    by_cases same : other = handle
    · exact same ▸ mem
    · simp only [Contents.next, update_of_ne same] at filled
      exact stores.lists other filled
  · intro other
    by_cases same : other = handle
    · subst same
      simp only [Contents.next, update_self, List.length_append, List.length_singleton]
      have room := stores.room other
      by_cases filled : contents.list other = []
      · rw [filled]
        exact Nat.le_add_left _ _
      · rw [continues filled]
        exact Nat.succ_le_succ room
    · simp only [Contents.next, update_of_ne same]
      exact stores.room other
  · intro other
    by_cases same : other = handle
    · subst same
      rw [update_self]
      exact fits
    · rw [update_of_ne same]
      exact stores.bound other
  · intro other seq counted
    by_cases same : other = handle
    · subst same
      rw [AList.lookup_insert, Nat.mod_eq_of_lt fits] at counted
      rw [update_self]
      exact (Option.some.inj counted).symm
    · rw [AList.lookup_insert_ne same] at counted
      rw [update_of_ne same]
      exact stores.seeded other seq counted

theorem clearList (apart : Apart scope) (stores : Stores scope next p contents)
    (mem : handle ∈ scope.lists) : Stores scope next (p.callList handle .clear).1
    (contents.next (.list handle .clear)) := by
  have called : (p.callList handle .clear).1 = { p with
      db := p.db.deleteRange (listPrefixBytes handle.name handle.key)
        (prefixUpperBound (listPrefixBytes handle.name handle.key)) } := by
    simp [callList, stores.opened]
  have left : ∀ full value, (full, value) ∈ (p.db.deleteRange
      (listPrefixBytes handle.name handle.key)
      (prefixUpperBound (listPrefixBytes handle.name handle.key))).entries ↔
        (full, value) ∈ p.db.entries ∧ ¬listPrefixBytes handle.name handle.key <+: full := by
    intro full value
    rw [mem_deleteRange, listPrefixBytes_eq, inRange_iff]
  rw [called]
  refine { stores with value := ?_, list := ?_, known := ?_, lists := ?_, room := ?_ }
  · intro other inside stored
    have outside : ¬listPrefixBytes handle.name handle.key <+: valueUserKey other.name other.key :=
      fun begins => not_listNamespacePrefix_valueUserKey _ _ _
        ((listNamespacePrefix_begins _ _).trans begins)
    rw [left, stores.value other inside]
    exact and_iff_left outside
  · intro other inside seq fits stored
    rw [left, stores.list other inside seq fits]
    by_cases same : other = handle
    · subst same
      simp only [Contents.next, update_self]
      constructor
      · rintro ⟨_, outside⟩
        exact absurd (listPrefixBytes_begins _ _ _) outside
      · rintro ⟨i, found, _⟩
        exact absurd found (by rintro ⟨⟩)
    · have outside : ¬listPrefixBytes handle.name handle.key <+:
          listEntryKey other.name other.key seq :=
        fun begins => same (apart.lists handle mem other inside seq fits begins).symm
      simp only [Contents.next, update_of_ne same]
      exact and_iff_left outside
  · intro full stored entry
    exact stores.known full stored ((left full stored).1 entry).1
  · intro other filled
    by_cases same : other = handle
    · exact same ▸ mem
    · simp only [Contents.next, update_of_ne same] at filled
      exact stores.lists other filled
  · intro other
    by_cases same : other = handle
    · subst same
      simp [Contents.next]
    · simp only [Contents.next, update_of_ne same]
      exact stores.room other

theorem mem_listKeys {start : Nat} {entries : List (Bytes × Bytes)} {keys : List Bytes}
    {key : Bytes} :
    key ∈ entries.foldl (listKeys start) keys ↔ key ∈ keys ∨
      ∃ entry ∈ entries, start + 9 ≤ entry.1.length ∧
        (entry.1.drop start).take (entry.1.length - 9 - start) = key := by
  induction entries generalizing keys with
  | nil => simp
  | cons entry entries ih =>
    have step : key ∈ listKeys start keys entry ↔ key ∈ keys ∨
        start + 9 ≤ entry.1.length ∧
          (entry.1.drop start).take (entry.1.length - 9 - start) = key := by
      simp only [listKeys]
      split
      · next short =>
        have long : ¬start + 9 ≤ entry.1.length := Nat.not_le_of_lt short
        simp [long]
      · next long =>
        have long : start + 9 ≤ entry.1.length := Nat.le_of_not_lt long
        split
        · next seen =>
          constructor
          · exact .inl
          · rintro (old | ⟨_, rfl⟩)
            · exact old
            · exact seen
        · simp [long, eq_comm]
    rw [List.foldl_cons, ih, step, List.exists_mem_cons_iff, or_assoc]

theorem key_of_listEntryKey (name key : Bytes) (seq : Nat) :
    (listNamespacePrefix name).length + 9 ≤ (listEntryKey name key seq).length ∧
      ((listEntryKey name key seq).drop (listNamespacePrefix name).length).take
        ((listEntryKey name key seq).length - 9 - (listNamespacePrefix name).length) = key := by
  have whole : listEntryKey name key seq =
      listNamespacePrefix name ++ (key ++ ([0] ++ bigEndian 8 seq)) := by
    simp [listEntryKey, listNamespacePrefix]
  have length : (listEntryKey name key seq).length =
      (listNamespacePrefix name).length + (key.length + 9) := by
    rw [whole]
    simp
  constructor
  · omega
  · have size : (listEntryKey name key seq).length - 9 - (listNamespacePrefix name).length =
        key.length := by omega
    rw [size, whole, List.drop_left, List.take_left]

theorem mem_scan_names {p : PebbleBackend} : (full, value) ∈ p.scan (listNamespacePrefix name) ↔
      (full, value) ∈ p.db.entries ∧ listNamespacePrefix name <+: full := by
  rw [PebbleBackend.scan, mem_range, listNamespacePrefix, inRange_iff]

theorem keysList (apart : Apart scope) (stores : Stores scope next p contents)
    (mem : handle ∈ scope.lists) (key : Bytes) :
    key ∈ (p.scan (listNamespacePrefix handle.name)).foldl
        (listKeys (listNamespacePrefix handle.name).length) [] ↔
      contents.list { handle with key } ≠ [] := by
  rw [mem_listKeys]
  constructor
  · rintro (none | ⟨⟨full, value⟩, scanned, long, rfl⟩)
    · exact absurd none (by rintro ⟨⟩)
    · obtain ⟨entry, begins⟩ := mem_scan_names.1 scanned
      rcases stores.known full value entry with ⟨other, _, rfl⟩ | ⟨other, inside, seq, fits, rfl⟩
      · exact absurd begins (not_listNamespacePrefix_valueUserKey _ _ _)
      · have names := apart.names handle mem other inside seq fits begins long
        obtain ⟨i, found, _⟩ := (stores.list other inside seq fits value).1 entry
        dsimp only
        rw [names, (key_of_listEntryKey other.name other.key seq).2]
        intro empty
        rw [empty] at found
        exact absurd found (by rintro ⟨⟩)
  · intro filled
    have inside := stores.lists _ filled
    have room := stores.room { handle with key }
    have bound := stores.bound { handle with key }
    obtain ⟨value, rest, list⟩ := List.exists_cons_of_ne_nil filled
    have length : (contents.list { handle with key }).length = rest.length + 1 := by
      rw [list, List.length_cons]
    have slot : Slot (contents.list { handle with key }) (next { handle with key })
        (next { handle with key } - (rest.length + 1)) value :=
      ⟨0, by rw [list]; rfl, by omega⟩
    have entry := (stores.list _ inside _ (by omega) value).2 slot
    refine .inr ⟨_, mem_scan_names.2 ⟨entry, ?_⟩, key_of_listEntryKey _ _ _⟩
    exact (listNamespacePrefix_begins _ _).trans (listPrefixBytes_begins _ _ _)

/-! ### Values -/

theorem mem_scan_values {p : PebbleBackend} : (full, value) ∈ p.scan (valuePrefixBytes name) ↔
      (full, value) ∈ p.db.entries ∧ valuePrefixBytes name <+: full := by
  have shape : valuePrefixBytes name = [valuePrefix, 0] ++ name ++ [0] := by
    simp [valuePrefixBytes, valueUserKey]
  rw [PebbleBackend.scan, mem_range, shape, inRange_iff]

theorem scan_values (apart : Apart scope) (stores : Stores scope next p contents)
    (mem : handle ∈ scope.values) : (full, value) ∈ p.scan (valuePrefixBytes handle.name) ↔
      ∃ key, full = valueUserKey handle.name key ∧
        contents.value { handle with key } = some value := by
  rw [mem_scan_values]
  constructor
  · rintro ⟨entry, begins⟩
    rcases stores.known full value entry with ⟨other, inside, rfl⟩ | ⟨other, _, seq, _, rfl⟩
    · have names : handle.name = other.name := apart.values handle mem other inside begins
      refine ⟨other.key, by rw [names], ?_⟩
      rw [names]
      exact (stores.value other inside value).1 entry
    · exact absurd begins (not_valuePrefix_listEntryKey _ _ _ _)
  · rintro ⟨key, rfl, held⟩
    have inside : ({ handle with key } : Handle) ∈ scope.values := by
      apply stores.values
      rw [held]
      rintro ⟨⟩
    exact ⟨(stores.value _ inside value).2 held, valuePrefixBytes_begins _ _⟩

theorem of_values (stores : Stores scope next p contents) {db : OrderedMap Bytes Bytes}
    {changed : Handle → Option Bytes}
    (value : ∀ handle ∈ scope.values, ∀ value,
      (valueUserKey handle.name handle.key, value) ∈ db.entries ↔ changed handle = some value)
    (list : ∀ (handle : Handle) seq value,
      (listEntryKey handle.name handle.key seq, value) ∈ db.entries ↔
        (listEntryKey handle.name handle.key seq, value) ∈ p.db.entries)
    (known : ∀ full value, (full, value) ∈ db.entries → (full, value) ∈ p.db.entries ∨
      ∃ handle ∈ scope.values, full = valueUserKey handle.name handle.key)
    (values : ∀ handle, changed handle ≠ none → handle ∈ scope.values) :
    Stores scope next { p with db } { contents with value := changed } :=
  { stores with
    value, values
    list := fun handle mem seq fits value => (list ..).trans (stores.list handle mem seq fits value)
    known := fun full value entry => (known full value entry).elim (stores.known full value) .inl }

theorem get_eq (stores : Stores scope next p contents) (mem : handle ∈ scope.values) :
    p.db.get (valueUserKey handle.name handle.key) = contents.value handle := by
  apply Option.ext
  intro value
  exact OrderedMap.get_eq_some.trans (stores.value handle mem value)

theorem put (apart : Apart scope) (stores : Stores scope next p contents)
    (mem : handle ∈ scope.values)
    {new : Option Bytes} {db : OrderedMap Bytes Bytes} (puts : ∀ full value,
      (full, value) ∈ db.entries ↔
      full = valueUserKey handle.name handle.key ∧ new = some value ∨
        (full, value) ∈ p.db.entries ∧ full ≠ valueUserKey handle.name handle.key) :
    Stores scope next { p with db }
      { contents with value := update contents.value handle new } := by
  apply stores.of_values
  · intro other inside stored
    rw [puts, stores.value other inside]
    by_cases same : other = handle
    · subst same
      simp
    · have differs : valueUserKey other.name other.key ≠ valueUserKey handle.name handle.key :=
        fun key => same (apart.value_eq inside mem key)
      simp [update_of_ne same, differs]
  · intro other seq stored
    have differs := (valueUserKey_ne handle.name handle.key other.name other.key seq).symm
    simp [puts, differs]
  · intro full stored entry
    rcases (puts full stored).1 entry with new | old
    · exact .inr ⟨handle, mem, new.1⟩
    · exact .inl old.1
  · intro other held
    by_cases same : other = handle
    · exact same ▸ mem
    · rw [update_of_ne same] at held
      exact stores.values other held

theorem set (apart : Apart scope) (stores : Stores scope next p contents)
    (mem : handle ∈ scope.values) (value : Bytes) :
      Stores scope next (p.callValue handle (.set value)).1
      (contents.next (.value handle (.set value))) := by
  have called : (p.callValue handle (.set value)).1 =
      { p with db := p.db.set (valueUserKey handle.name handle.key) value } := by
    simp [callValue, stores.opened]
  rw [called]
  exact put apart stores mem fun full stored => by simp [mem_set, eq_comm]

theorem clear (apart : Apart scope) (stores : Stores scope next p contents)
    (mem : handle ∈ scope.values) : Stores scope next (p.callValue handle .clear).1
    (contents.next (.value handle .clear)) := by
  have called : (p.callValue handle .clear).1 =
      { p with db := p.db.delete (valueUserKey handle.name handle.key) } := by
    simp [callValue, stores.opened]
  rw [called]
  exact put apart stores mem fun full stored => by simp [mem_delete]

theorem mem_restored {entries : List (Sigma fun _ : Bytes => Bytes)}
    (distinct : entries.NodupKeys) {db : OrderedMap Bytes Bytes} : (full, value) ∈ (entries.foldl
        (fun db entry => db.set (valueUserKey name entry.1) entry.2) db).entries ↔
      (∃ key, ⟨key, value⟩ ∈ entries ∧ full = valueUserKey name key) ∨
        (full, value) ∈ db.entries ∧ ∀ entry ∈ entries, full ≠ valueUserKey name entry.1 := by
  induction entries generalizing db with
  | nil => simp
  | cons entry entries ih =>
    obtain ⟨fresh, later⟩ := List.nodupKeys_cons.1 distinct
    rw [List.foldl_cons, ih later, mem_set]
    constructor
    · rintro (⟨key, listed, same⟩ | ⟨new | ⟨old, differs⟩, others⟩)
      · exact .inl ⟨key, .tail _ listed, same⟩
      · obtain ⟨rfl, rfl⟩ := Prod.mk.inj new
        exact .inl ⟨entry.1, .head _, rfl⟩
      · exact .inr ⟨old, List.forall_mem_cons.2 ⟨differs, others⟩⟩
    · rintro (⟨key, listed, rfl⟩ | ⟨old, differs⟩)
      · rcases List.mem_cons.1 listed with rfl | listed
        · refine .inr ⟨.inl rfl, fun other member same => fresh ?_⟩
          have keys := congrArg (valueUserKeyFromFull name) same
          rw [valueUserKeyFromFull_valueUserKey, valueUserKeyFromFull_valueUserKey] at keys
          dsimp only at keys ⊢
          rw [keys]
          exact List.mem_map_of_mem member
        · exact .inl ⟨key, listed, rfl⟩
      · obtain ⟨first, others⟩ := List.forall_mem_cons.1 differs
        exact .inr ⟨.inr ⟨old, first⟩, others⟩

theorem restoreAll (apart : Apart scope) (stores : Stores scope next p contents)
    {entries : ValueState Bytes Bytes}
      (within : Call.Within scope (.value handle (.restoreAll entries))) :
    Stores scope next (p.callValue handle (.restoreAll entries)).1
      (contents.next (.value handle (.restoreAll entries))) := by
  obtain ⟨mem, keys⟩ := within
  have called : (p.callValue handle (.restoreAll entries)).1 = { p with
      db := entries.entries.foldl
        (fun db entry => db.set (valueUserKey handle.name entry.1) entry.2)
        (p.db.deleteRange (valuePrefixBytes handle.name)
          (prefixUpperBound (valuePrefixBytes handle.name))) } := by
    simp [callValue, stores.opened]
  have left : ∀ full value, (full, value) ∈ (p.db.deleteRange (valuePrefixBytes handle.name)
      (prefixUpperBound (valuePrefixBytes handle.name))).entries ↔
        (full, value) ∈ p.db.entries ∧ ¬valuePrefixBytes handle.name <+: full := by
    intro full value
    have shape : valuePrefixBytes handle.name = [valuePrefix, 0] ++ handle.name ++ [0] := by
      simp [valuePrefixBytes, valueUserKey]
    rw [mem_deleteRange, shape, inRange_iff]
  rw [called]
  apply stores.of_values
  · intro other inside stored
    rw [mem_restored entries.nodupKeys, left]
    by_cases names : other.name = handle.name
    · rw [if_pos names, names]
      constructor
      · rintro (⟨key, listed, same⟩ | ⟨⟨_, outside⟩, _⟩)
        · have own := congrArg (valueUserKeyFromFull handle.name) same
          rw [valueUserKeyFromFull_valueUserKey, valueUserKeyFromFull_valueUserKey] at own
          rw [own]
          exact AList.mem_lookup_iff.2 listed
        · exact absurd (valuePrefixBytes_begins _ _) outside
      · intro found
        exact .inl ⟨other.key, AList.mem_lookup_iff.1 found, rfl⟩
    · have outside : ¬valuePrefixBytes handle.name <+: valueUserKey other.name other.key :=
        fun begins => names (apart.values handle mem other inside begins).symm
      rw [if_neg names, ← stores.value other inside]
      constructor
      · rintro (⟨key, _, same⟩ | ⟨⟨old, _⟩, _⟩)
        · rw [same] at outside
          exact absurd (valuePrefixBytes_begins _ _) outside
        · exact old
      · intro old
        refine .inr ⟨⟨old, outside⟩, fun entry _ same => ?_⟩
        rw [same] at outside
        exact outside (valuePrefixBytes_begins _ _)
  · intro other seq stored
    rw [mem_restored entries.nodupKeys, left]
    have outside := not_valuePrefix_listEntryKey handle.name other.name other.key seq
    constructor
    · rintro (⟨key, _, same⟩ | ⟨⟨old, _⟩, _⟩)
      · exact absurd same.symm (valueUserKey_ne _ _ _ _ _)
      · exact old
    · intro old
      exact .inr ⟨⟨old, outside⟩, fun entry _ => (valueUserKey_ne _ _ _ _ _).symm⟩
  · intro full stored entry
    rcases (mem_restored entries.nodupKeys).1 entry with ⟨key, listed, same⟩ | ⟨old, _⟩
    · exact .inr ⟨{ handle with key }, keys key (List.mem_map_of_mem listed), same⟩
    · exact .inl ((left full stored).1 old).1
  · intro other held
    by_cases names : other.name = handle.name
    · rw [if_pos names] at held
      have listed : other.key ∈ entries.keys := by
        rw [← AList.mem_keys, ← AList.lookup_isSome]
        exact Option.isSome_iff_ne_none.2 held
      have inside := keys other.key listed
      rw [← names] at inside
      exact inside
    · rw [if_neg names] at held
      exact stores.values other held

theorem lookup_collected {held : Bytes → Option Bytes}
    {entries : List (Bytes × Bytes)} {out : ValueState Bytes Bytes}
    (agree : ∀ entry ∈ entries, held (valueUserKeyFromFull name entry.1) = some entry.2)
      (key : Bytes) :
    (entries.foldl (fun out entry =>
      out.insert (valueUserKeyFromFull name entry.1) entry.2) out).lookup key =
      if ∃ entry ∈ entries, valueUserKeyFromFull name entry.1 = key then
        held key else out.lookup key := by
  induction entries generalizing out with
  | nil => simp
  | cons entry entries ih =>
    obtain ⟨first, others⟩ := List.forall_mem_cons.1 agree
    rw [List.foldl_cons, ih others]
    by_cases later : ∃ entry ∈ entries, valueUserKeyFromFull name entry.1 = key
    · have all : ∃ other ∈ entry :: entries, valueUserKeyFromFull name other.1 = key := by
        obtain ⟨other, listed, same⟩ := later
        exact ⟨other, .tail _ listed, same⟩
      rw [if_pos later, if_pos all]
    · rw [if_neg later]
      by_cases here : valueUserKeyFromFull name entry.1 = key
      · subst here
        rw [AList.lookup_insert, if_pos ⟨entry, .head _, rfl⟩, first]
      · have none : ¬∃ other ∈ entry :: entries, valueUserKeyFromFull name other.1 = key := by
          rw [List.exists_mem_cons_iff]
          exact not_or.2 ⟨here, later⟩
        rw [if_neg none, AList.lookup_insert_ne (Ne.symm here)]

theorem snapshotAll (apart : Apart scope) (stores : Stores scope next p contents)
    (mem : handle ∈ scope.values) (key : Bytes) :
    AList.lookup key ((p.scan (valuePrefixBytes handle.name)).foldl
        (fun out entry => out.insert (valueUserKeyFromFull handle.name entry.1) entry.2)
        (∅ : ValueState Bytes Bytes)) =
      contents.value { handle with key } := by
  let held : Bytes → Option Bytes := fun key => contents.value { handle with key }
  have agree : ∀ entry ∈ p.scan (valuePrefixBytes handle.name),
      held (valueUserKeyFromFull handle.name entry.1) = some entry.2 := by
    rintro ⟨full, value⟩ scanned
    obtain ⟨key, rfl, found⟩ := (scan_values apart stores mem).1 scanned
    rw [valueUserKeyFromFull_valueUserKey]
    exact found
  rw [lookup_collected agree]
  split
  · rfl
  · next none =>
    symm
    apply Option.eq_none_iff_forall_ne_some.2
    intro value found
    have scanned := (scan_values apart stores mem).2 ⟨key, rfl, found⟩
    exact none ⟨_, scanned, valueUserKeyFromFull_valueUserKey _ _⟩

theorem keys (apart : Apart scope) (stores : Stores scope next p contents)
    (mem : handle ∈ scope.values) (key : Bytes) :
    key ∈ (p.scan (valuePrefixBytes handle.name)).map
        (fun entry => valueUserKeyFromFull handle.name entry.1) ↔
      (contents.value { handle with key }).isSome := by
  rw [List.mem_map, Option.isSome_iff_exists]
  constructor
  · rintro ⟨⟨full, value⟩, scanned, rfl⟩
    obtain ⟨key, rfl, found⟩ := (scan_values apart stores mem).1 scanned
    rw [valueUserKeyFromFull_valueUserKey]
    exact ⟨value, found⟩
  · rintro ⟨value, found⟩
    have scanned := (scan_values apart stores mem).2 ⟨key, rfl, found⟩
    exact ⟨_, scanned, valueUserKeyFromFull_valueUserKey _ _⟩

/-! ### Calls -/

/-- Every call does to the store what it does to the contents, and answers as they do. A call
that appends needs a number that is left. -/
theorem call_spec (apart : Apart scope) (stores : Stores scope next p contents) {call : Call}
    (within : call.Within scope)
    (fits : ∀ handle, call.appends handle = true → p.nextSeq handle + 1 < 2 ^ 64) :
    ∃ after : Handle → Nat,
      Stores scope after (PebbleBackend.backend.call p call).1 (contents.next call) ∧
        contents.Answers call (PebbleBackend.backend.call p call).2 ∧
        ∀ handle, after handle ≤ next handle + (call.appends handle).toNat := by
  have still : ∀ handle, next handle ≤ next handle + (call.appends handle).toNat :=
    fun handle => Nat.le_add_right _ _
  cases call with
  | valueState name => exact ⟨next, stores, .valueState name, still⟩
  | listState name => exact ⟨next, stores, .listState name, still⟩
  | value handle method =>
    have mem := within.value
    cases method with
    | get =>
      refine ⟨next, stores, ?_, still⟩
      have answer : (p.callValue handle .get).2 = .value ((contents.value handle).getD []) := by
        simp [callValue, stores.opened, stores.get_eq mem]
      exact answer ▸ .get handle
    | set value => exact ⟨next, set apart stores mem value, .set handle value, still⟩
    | clear => exact ⟨next, clear apart stores mem, .clear handle, still⟩
    | keys =>
      refine ⟨next, stores, .keys handle _ ?_, still⟩
      simp only [stores.opened, Bool.false_eq_true, if_false]
      exact keys apart stores mem
    | snapshotAll =>
      refine ⟨next, stores, .snapshotAll handle _ ?_, still⟩
      simp only [stores.opened, Bool.false_eq_true, if_false]
      exact snapshotAll apart stores mem
    | restoreAll entries =>
      refine ⟨next, restoreAll apart stores within, ?_, still⟩
      have answer : (p.callValue handle (.restoreAll entries)).2 = .done := by
        simp [callValue, stores.opened]
      exact answer ▸ .restoreAll handle entries
  | list handle method =>
    have mem : handle ∈ scope.lists := within
    cases method with
    | append value =>
      have room : p.nextSeq handle + 1 < 2 ^ 64 := fits handle (by simp [Call.appends])
      refine ⟨_, append apart stores mem room value, .append handle value, fun other => ?_⟩
      by_cases same : other = handle
      · subst same
        have small := (nextSeq_spec apart stores mem).1
        simp only [update_self, Call.appends, decide_true, Bool.toNat_true]
        omega
      · rw [update_of_ne same]
        exact Nat.le_add_right _ _
    | getAll =>
      refine ⟨next, stores, ?_, still⟩
      have answer := getAll_eq apart stores mem
      exact answer ▸ .getAll handle
    | clear => exact ⟨next, clearList apart stores mem, .clearList handle, still⟩
    | keys =>
      refine ⟨next, stores, .keysList handle _ ?_, still⟩
      simp only [stores.opened, Bool.false_eq_true, if_false]
      exact keysList apart stores mem

end Stores

end Weibo.State
