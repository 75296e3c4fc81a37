import Weibo.State.StateBackend

/-!
# The Pebble backend

`PebbleBackend` keeps values and lists in one byte-ordered store: `v`, namespace and key for a
value, `l`, namespace, key and a sequence number for each element of a list, separated by NUL bytes.
A method works on a range of keys with a common beginning.
-/

namespace Weibo.State

open List

open ByteOrder (bigEndian ofBigEndian)

/-! ## Keys -/

def valuePrefix : UInt8 := 0x76

def listPrefix : UInt8 := 0x6c

def valueUserKey (name key : Bytes) : Bytes := [valuePrefix, 0] ++ name ++ [0] ++ key

/-- `valuePrefixBytes`, also `prefixStart`. -/
def valuePrefixBytes (name : Bytes) : Bytes := valueUserKey name []

def valueUserKeyFromFull (name fullKey : Bytes) : Bytes :=
  let expected := valuePrefixBytes name
  if expected.length < fullKey.length then fullKey.drop expected.length else []

def listEntryKey (name key : Bytes) (seq : Nat) : Bytes :=
  [listPrefix, 0] ++ name ++ [0] ++ key ++ [0] ++ bigEndian 8 seq

def listPrefixBytes (name key : Bytes) : Bytes :=
  (listEntryKey name key 0).take ((listEntryKey name key 0).length - 8)

def listNamespacePrefix (name : Bytes) : Bytes := [listPrefix, 0] ++ name ++ [0]

/-- `prefixUpperBound`: the last byte that can be raised is raised, the bytes after it are
dropped. -/
def prefixUpperBound (bytes : Bytes) : Bytes :=
  match bytes.reverse.dropWhile (· = 0xff) with
  | last :: rest => rest.reverse ++ [last + 1]
  | [] => bytes ++ [0xff]

theorem listPrefixBytes_eq (name key : Bytes) :
    listPrefixBytes name key = [listPrefix, 0] ++ name ++ [0] ++ key ++ [0] := by
  rw [listPrefixBytes, listEntryKey, length_append, ByteOrder.length_bigEndian,
    Nat.add_sub_cancel, take_left]

theorem listEntryKey_eq (name key : Bytes) (seq : Nat) :
    listEntryKey name key seq = listPrefixBytes name key ++ bigEndian 8 seq := by
  rw [listPrefixBytes_eq]
  rfl

theorem valueUserKey_eq
    (name key : Bytes) : valueUserKey name key = valuePrefixBytes name ++ key := by
  simp [valuePrefixBytes, valueUserKey]

theorem inRange_iff (front full : Bytes) :
    OrderedMap.InRange (front ++ [0]) (prefixUpperBound (front ++ [0])) full ↔
    front ++ [0] <+: full := by
  have upper : prefixUpperBound (front ++ [0]) = front ++ [0 + 1] := by
    rw [prefixUpperBound, reverse_append, reverse_singleton, singleton_append,
      dropWhile_cons_of_neg (by simp)]
    show front.reverse.reverse ++ [0 + 1] = _
    rw [reverse_reverse]
  rw [upper]
  exact ByteOrder.inRange_iff (by decide) front full

theorem valueUserKey_ne (name key : Bytes) (other otherKey : Bytes) (seq : Nat) :
    valueUserKey name key ≠ listEntryKey other otherKey seq := by
  intro same
  have first : valuePrefix = listPrefix := (cons.inj same).1
  exact absurd first (by decide)

theorem not_valuePrefix_listEntryKey (name other key : Bytes) (seq : Nat) :
    ¬valuePrefixBytes name <+: listEntryKey other key seq := by
  rintro ⟨rest, same⟩
  have first : valuePrefix = listPrefix := (cons.inj same).1
  exact absurd first (by decide)

theorem not_listNamespacePrefix_valueUserKey (name other key : Bytes) :
    ¬listNamespacePrefix name <+: valueUserKey other key := by
  rintro ⟨rest, same⟩
  have first : listPrefix = valuePrefix := (cons.inj same).1
  exact absurd first (by decide)

theorem listNamespacePrefix_begins (name key : Bytes) :
    listNamespacePrefix name <+: listPrefixBytes name key := by
  rw [listPrefixBytes_eq, listNamespacePrefix, append_assoc _ key]
  exact prefix_append _ _

theorem listPrefixBytes_begins (name key : Bytes) (seq : Nat) :
    listPrefixBytes name key <+: listEntryKey name key seq := by
  rw [listEntryKey_eq]
  exact prefix_append _ _

theorem valuePrefixBytes_begins
    (name key : Bytes) : valuePrefixBytes name <+: valueUserKey name key := by
  rw [valueUserKey_eq]
  exact prefix_append _ _

theorem valueUserKeyFromFull_valueUserKey (name key : Bytes) :
    valueUserKeyFromFull name (valueUserKey name key) = key := by
  rw [valueUserKey_eq, valueUserKeyFromFull]
  cases key with
  | nil | cons byte key => simp

theorem listEntryKey_lt (name key : Bytes) {smaller larger : Nat} (fits : larger < 2 ^ 64)
    (less : smaller < larger) : listEntryKey name key smaller < listEntryKey name key larger := by
  have numbers : bigEndian 8 smaller < bigEndian 8 larger := ByteOrder.bigEndian_lt fits less
  rw [listEntryKey_eq, listEntryKey_eq]
  exact List.Lex.append_left _ numbers _

theorem ofBigEndian_listEntryKey (name key : Bytes) {seq : Nat} (fits : seq < 2 ^ 64) : ofBigEndian
    ((listEntryKey name key seq).drop ((listEntryKey name key seq).length - 8)) = seq := by
  rw [listEntryKey_eq, length_append, ByteOrder.length_bigEndian, Nat.add_sub_cancel,
    drop_left]
  exact ByteOrder.ofBigEndian_bigEndian fits

theorem listEntryKey_seq {name key : Bytes} {seq other : Nat} (fits : seq < 2 ^ 64)
    (otherFits : other < 2 ^ 64) (same : listEntryKey name key seq = listEntryKey name key other) :
    seq = other := by
  rw [← ofBigEndian_listEntryKey name key fits, same, ofBigEndian_listEntryKey name key otherFits]

/-! ## The backend -/

/-- `PebbleBackend`: the store in its directory, the next number of every list that was appended
to by this process, and whether the store is closed. -/
structure PebbleBackend where
  db : OrderedMap Bytes Bytes := .empty
  seqs : ValueState Handle Nat := ∅
  closed : Bool := false

namespace PebbleBackend

def scan (p : PebbleBackend) (bytes : Bytes) : List (Bytes × Bytes) :=
  p.db.range bytes (prefixUpperBound bytes)

/-- `nextListSeq`: one past the number of the last entry. -/
def nextListSeq (p : PebbleBackend) (name key : Bytes) : Nat :=
  match (p.scan (listPrefixBytes name key)).getLast? with
  | none => 0
  | some (full, _) => (ofBigEndian (full.drop (full.length - 8)) + 1) % 2 ^ 64

/-- The number that `Append` gives the next element. -/
def nextSeq (p : PebbleBackend) (handle : Handle) : Nat :=
  match p.seqs.lookup handle with
  | some seq => seq
  | none => p.nextListSeq handle.name handle.key

/-- The loop of `pebbleListState.Keys`. -/
def listKeys (start : Nat) (keys : List Bytes) (entry : Bytes × Bytes) : List Bytes :=
  let full := entry.1
  if full.length < start + 9 then keys
  else
    let key := (full.drop start).take (full.length - 9 - start)
    if key ∈ keys then keys else keys ++ [key]

/-- The methods of `pebbleValueState`. On a closed backend they do nothing. -/
def callValue (p : PebbleBackend) (handle : Handle) : ValueMethod → PebbleBackend × Reply
  | .get =>
    (p, .value (if p.closed then [] else (p.db.get (valueUserKey handle.name handle.key)).getD []))
  | .set value =>
    (if p.closed then p
    else { p with db := p.db.set (valueUserKey handle.name handle.key) value }, .done)
  | .clear =>
    (if p.closed then p
    else { p with db := p.db.delete (valueUserKey handle.name handle.key) }, .done)
  | .keys =>
    (p, .keys (if p.closed then []
    else (p.scan (valuePrefixBytes handle.name)).map
      fun entry => valueUserKeyFromFull handle.name entry.1))
  | .snapshotAll =>
    (p, .snapshot (if p.closed then ∅
    else (p.scan (valuePrefixBytes handle.name)).foldl
      (fun out entry => out.insert (valueUserKeyFromFull handle.name entry.1) entry.2) ∅))
  | .restoreAll entries =>
    if p.closed then (p, .error)
    else
      let bytes := valuePrefixBytes handle.name
      let db := entries.entries.foldl
        (fun db entry => db.set (valueUserKey handle.name entry.1) entry.2)
        (p.db.deleteRange bytes (prefixUpperBound bytes))
      ({ p with db }, .done)

/-- The methods of `pebbleListState`. On a closed backend they do nothing. -/
def callList (p : PebbleBackend) (handle : Handle) : ListMethod → PebbleBackend × Reply
  | .append value =>
    (if p.closed then p
    else
      { p with
        seqs := p.seqs.insert handle ((p.nextSeq handle + 1) % 2 ^ 64)
        db := p.db.set (listEntryKey handle.name handle.key (p.nextSeq handle)) value }, .done)
  | .getAll =>
    (p, .values (if p.closed then []
    else (p.scan (listPrefixBytes handle.name handle.key)).map Prod.snd))
  | .clear =>
    let bytes := listPrefixBytes handle.name handle.key
    (if p.closed then p
    else { p with db := p.db.deleteRange bytes (prefixUpperBound bytes) }, .done)
  | .keys =>
    let bytes := listNamespacePrefix handle.name
    (p, .keys (if p.closed then [] else (p.scan bytes).foldl (listKeys bytes.length) []))

def backend : StateBackend PebbleBackend where
  call p
    | .valueState _ => (p, .done)
    | .listState _ => (p, .done)
    | .value handle method => p.callValue handle method
    | .list handle method => p.callList handle method

end PebbleBackend

/-! ## Namespaces and keys that do not overlap -/

structure Scope where
  values : Set Handle
  lists : Set Handle

/-- No method of a handle reaches an entry of another one: the range of a namespace has only its
own entries, and the range of a list only its own elements. -/
structure Apart (scope : Scope) : Prop where
  values : ∀ own ∈ scope.values, ∀ other ∈ scope.values,
    valuePrefixBytes own.name <+: valueUserKey other.name other.key → own.name = other.name
  lists : ∀ own ∈ scope.lists, ∀ other ∈ scope.lists, ∀ seq, seq + 1 < 2 ^ 64 →
    listPrefixBytes own.name own.key <+: listEntryKey other.name other.key seq → own = other
  names : ∀ own ∈ scope.lists, ∀ other ∈ scope.lists, ∀ seq, seq + 1 < 2 ^ 64 →
    listNamespacePrefix own.name <+: listEntryKey other.name other.key seq →
    (listNamespacePrefix own.name).length + 9 ≤ (listEntryKey other.name other.key seq).length →
    own.name = other.name

def Call.Within (scope : Scope) : Call → Prop
  | .valueState _ => True
  | .listState _ => True
  | .value handle (.restoreAll entries) =>
    handle ∈ scope.values ∧ ∀ key ∈ entries.keys, { handle with key } ∈ scope.values
  | .value handle _ => handle ∈ scope.values
  | .list handle _ => handle ∈ scope.lists

def Call.appends (handle : Handle) : Call → Bool
  | .list other (.append _) => other = handle
  | _ => false

theorem Call.Within.value {scope : Scope} {handle : Handle} {method : ValueMethod}
    (within : Call.Within scope (.value handle method)) : handle ∈ scope.values := by
  cases method with
  | restoreAll => exact within.1
  | _ => exact within

end Weibo.State
