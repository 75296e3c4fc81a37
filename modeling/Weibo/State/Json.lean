import Mathlib.Algebra.Order.BigOperators.Group.Finset
import Mathlib.Algebra.Order.Ring.Nat
import Weibo.Lib.ByteOrder
import Weibo.Lib.Utf8
import Weibo.State.Memory

/-!
# State in JSON objects

An inline checkpoint stores a map as a JSON object. Each key is written as Unicode text and read
back as that; of several equal names the last one counts. Values go through unchanged.
-/

namespace Weibo

open List AList

section Object

variable {κ ν : Type} [DecidableEq κ] (text : κ → Bytes) (coerced : κ → κ) (combine : ν → ν → ν)

/-- The value read back for an entry: that of all entries whose names are read as its name, in
the order they are written, each combined with what was read before. -/
def merged (entries : List (Sigma fun _ : κ => ν)) (entry : Sigma fun _ : κ => ν) : ν :=
  match (entries.filter fun other => coerced other.1 = coerced entry.1).insertionSort
      fun a b => text a.1 ≤ text b.1 with
  | [] => entry.2
  | first :: later => later.foldl (fun held other => combine other.2 held) first.2

/-- What is read back of a map: `text` is the name a key is written as, `coerced` the key whose
name is read back. -/
def throughObject (state : ValueState κ ν) : ValueState κ ν :=
  (state.entries.map fun entry =>
    (⟨coerced entry.1, merged text coerced combine state.entries entry⟩ : Sigma fun _ : κ =>
      ν)).toAList

def takeLast (later _ : ν) : ν := later

variable {text coerced combine}

variable {entries : List (Sigma fun _ : κ => ν)} {entry : Sigma fun _ : κ => ν}

theorem filter_key (distinct : entries.NodupKeys) (mem : entry ∈ entries) :
    (entries.filter fun other => other.1 = entry.1) = [entry] := by
  induction entries with
  | nil => cases mem
  | cons first rest ih =>
    obtain ⟨fresh, later⟩ := nodupKeys_cons.1 distinct
    rcases mem_cons.1 mem with rfl | inside
    · have none : (rest.filter fun other => other.1 = entry.1) = [] := by
        rw [filter_eq_nil_iff]
        intro other listed same
        have equal : other.1 = entry.1 := of_decide_eq_true same
        exact fresh (equal ▸ mem_map_of_mem listed)
      simp [none]
    · have differs : first.1 ≠ entry.1 := fun same =>
        fresh (same ▸ mem_map_of_mem inside)
      rw [filter_cons_of_neg (by simpa using differs)]
      exact ih later inside

theorem dlookup_filter (distinct : entries.NodupKeys) (chosen : ν → Bool)
    (key : κ) : (entries.filter fun entry => chosen entry.2).dlookup key =
    (entries.dlookup key).filter chosen := by
  induction entries with
  | nil => rfl
  | cons first rest ih =>
    obtain ⟨fresh, later⟩ := nodupKeys_cons.1 distinct
    obtain ⟨name, value⟩ := first
    by_cases same : key = name
    · subst same
      have absent : rest.dlookup key = none := dlookup_eq_none.2 fresh
      rw [dlookup_cons_eq]
      by_cases picked : chosen value = true
      · simp [Option.filter, picked]
      · rw [filter_cons_of_neg (by simpa using picked), ih later, absent]
        simp [Option.filter, picked]
    · rw [dlookup_cons_ne _ _ same, ← ih later]
      by_cases picked : chosen value = true
      · rw [filter_cons_of_pos (by simpa using picked), dlookup_cons_ne _ _ same]
      · rw [filter_cons_of_neg (by simpa using picked)]

theorem toAList_entries (state : ValueState κ ν) : state.entries.toAList = state := by
  obtain ⟨entries, distinct⟩ := state
  refine ext ?_
  rw [entries_toAList]
  induction entries with
  | nil => rfl
  | cons entry rest ih =>
    obtain ⟨fresh, later⟩ := nodupKeys_cons.1 distinct
    rw [dedupKeys_cons, ih later, kinsert_def, kerase_of_notMem_keys fresh]

theorem merged_eq (distinct : entries.NodupKeys)
    (kept : ∀ other ∈ entries, coerced other.1 = other.1)
    (mem : entry ∈ entries) : merged text coerced combine entries entry = entry.2 := by
  have alone : (entries.filter fun other => coerced other.1 = coerced entry.1) = [entry] := by
    rw [← filter_key distinct mem]
    refine filter_congr fun other listed => ?_
    rw [kept other listed, kept entry mem]
  simp only [merged, alone, insertionSort_cons, insertionSort_nil, orderedInsert_nil,
    foldl_nil]

variable {state : ValueState κ ν}

theorem throughObject_eq (kept : ∀ key ∈ state.keys, coerced key = key) :
    throughObject text coerced combine state = state := by
  have entryKept : ∀ entry ∈ state.entries, coerced entry.1 = entry.1 := fun entry mem =>
    kept entry.1 (mem_map_of_mem mem)
  have same : (state.entries.map fun entry =>
      (⟨coerced entry.1, merged text coerced combine state.entries entry⟩ : Sigma fun _ : κ => ν)) =
      state.entries := by
    conv_rhs => rw [← map_id state.entries]
    refine map_congr_left fun entry mem => ?_
    rw [merged_eq state.nodupKeys entryKept mem, entryKept entry mem, id_eq]
  rw [throughObject, same, toAList_entries]

theorem mem_throughObject {key : κ} : key ∈ throughObject text coerced combine state ↔
    ∃ written ∈ state.keys, coerced written = key := by
  rw [← lookup_isSome, throughObject, lookup_to_alist, dlookup_isSome, List.keys,
    map_map, mem_map]
  constructor
  · rintro ⟨entry, mem, rfl⟩
    exact ⟨entry.1, mem_map_of_mem mem, rfl⟩
  · rintro ⟨written, mem, rfl⟩
    obtain ⟨entry, inside, rfl⟩ := mem_map.1 mem
    exact ⟨entry, inside, rfl⟩

theorem eq_of_image_eq {keys : Finset κ} {f : κ → κ} {size : κ → Nat} (onto : keys.image f = keys)
    (grows : ∀ key, size key ≤ size (f key)) : ∀ key ∈ keys, size (f key) = size key := by
  have injective : Set.InjOn f keys := by
    rw [← Finset.card_image_iff, onto]
  have sums : ∑ key ∈ keys, size (f key) = ∑ key ∈ keys, size key := by
    conv_rhs => rw [← onto]
    exact (Finset.sum_image fun a ha b hb => injective ha hb).symm
  intro key mem
  by_contra differs
  have strict : ∑ key ∈ keys, size key < ∑ key ∈ keys, size (f key) :=
    Finset.sum_lt_sum (fun key _ => grows key) ⟨key, mem,
      lt_of_le_of_ne (grows key) (Ne.symm differs)⟩
  exact strict.ne' sums

theorem size_eq_of_keys {size : κ → Nat} (grows : ∀ key, size key ≤ size (coerced key))
    (same : ∀ key, key ∈ throughObject text coerced combine state ↔ key ∈ state) :
    ∀ key ∈ state.keys, size (coerced key) = size key := by
  have onto : state.keys.toFinset.image coerced = state.keys.toFinset := by
    ext key
    rw [Finset.mem_image, mem_toFinset, ← AList.mem_keys, ← same, mem_throughObject]
    simp only [mem_toFinset]
  exact fun key mem => eq_of_image_eq onto grows key (mem_toFinset.2 mem)

theorem valid_of_keys (bytes : κ → Bytes) (written : ∀ key, bytes (coerced key) = Utf8.coerce
    (bytes key)) (same : ∀ key, key ∈ throughObject text coerced combine state ↔ key ∈ state) :
    ∀ key ∈ state.keys, Utf8.Valid (bytes key) := by
  have grows : ∀ key, (bytes key).length ≤ (bytes (coerced key)).length := by
    intro key
    rw [written]
    exact Utf8.length_le_coerce _
  intro key mem
  have kept := size_eq_of_keys grows same key mem
  rw [written] at kept
  exact Utf8.valid_of_length_coerce kept

theorem throughObject_same_iff (bytes : κ → Bytes)
    (written : ∀ key, bytes (coerced key) = Utf8.coerce (bytes key))
    (kept : ∀ key, Utf8.Valid (bytes key) → coerced key = key) :
    (∀ key, (throughObject text coerced combine state).lookup key = state.lookup key) ↔
      ∀ key ∈ state.keys, Utf8.Valid (bytes key) := by
  constructor
  · intro same
    have keys : ∀ key, key ∈ throughObject text coerced combine state ↔ key ∈ state := by
      intro key
      rw [← lookup_isSome, same, lookup_isSome]
    exact valid_of_keys bytes written keys
  · intro valid key
    rw [throughObject_eq fun key mem => kept key (valid key mem)]

theorem merged_holds {holds : ν → Prop} (all : ∀ entry ∈ entries, holds entry.2)
    (combines : ∀ later earlier, holds later → holds earlier → holds (combine later earlier))
    (mem : entry ∈ entries) : holds (merged text coerced combine entries entry) := by
  have listed :
    ∀ other, other ∈ (entries.filter fun other => coerced other.1 = coerced entry.1).insertionSort
      (fun a b => text a.1 ≤ text b.1) → other ∈ entries := fun other inside =>
    mem_of_mem_filter ((perm_insertionSort _ _).mem_iff.1 inside)
  simp only [merged]
  split
  · exact all entry mem
  next first later sorted =>
    rw [sorted] at listed
    exact foldlRecOn (motive := holds) _ _ (all first (listed first mem_cons_self))
      fun held kept other inside => combines _ _ (all other (listed other (.tail _ inside))) kept

theorem throughObject_holds {holds : ν → Prop}
    (all : ∀ key value, state.lookup key = some value → holds value) (combines : ∀ later earlier,
    holds later → holds earlier → holds (combine later earlier)) : ∀ key value,
    (throughObject text coerced combine state).lookup key = some value → holds value := by
  intro key value found
  rw [throughObject, lookup_to_alist] at found
  obtain ⟨entry, mem, same⟩ := mem_map.1 (of_mem_dlookup found)
  have written : ∀ other ∈ state.entries, holds other.2 := fun other inside =>
    all other.1 other.2 (mem_lookup_iff.2 inside)
  have read : holds (merged text coerced combine state.entries entry) :=
    merged_holds written combines mem
  have equal : merged text coerced combine state.entries entry = value :=
    eq_of_heq (Sigma.mk.inj same).2
  exact equal ▸ read

end Object

/-! ## Lists -/

namespace ListState

variable {κ ν : Type} [DecidableEq κ]

def ofEntries (entries : List (Entry κ ν)) : ListState κ ν :=
  entries.foldr (fun entry state => state.appendAll entry.1 entry.2) ∅

def Filled (state : ListState κ ν) : Prop := ∀ key, state.lookup key ≠ some []

theorem insert_appendAll (state : ListState κ ν) (key : κ) (held values : List ν) :
    appendAll (state.insert key held) key values = state.insert key (held ++ values) := by
  induction values generalizing held with
  | nil => rw [append_nil]; rfl
  | cons value values ih =>
    have step : appendAll (state.insert key held) key (value :: values) =
        appendAll (state.insert key (held ++ [value])) key values := by
      simp only [appendAll, foldl_cons, append, getAll, lookup_insert, Option.getD_some,
        insert_insert]
    rw [step, ih, append_assoc, singleton_append]

variable {state : ListState κ ν}

theorem appendAll_new {key : κ} (fresh : key ∉ state) {values : List ν}
    (some : values ≠ []) : state.appendAll key values = state.insert key values := by
  cases values with
  | nil => exact absurd rfl some
  | cons value values =>
    have step :
      state.appendAll key (value :: values) = appendAll (state.insert key [value]) key values := by
      simp [appendAll, append, getAll, lookup_eq_none.2 fresh]
    rw [step, insert_appendAll, singleton_append]

theorem ofEntries_eq (filled : state.Filled) : ofEntries state.entries = state := by
  obtain ⟨entries, distinct⟩ := state
  have each : ∀ entry ∈ entries, entry.2 ≠ [] := by
    intro entry mem empty
    refine filled entry.1 (mem_lookup_iff.2 ?_)
    rw [← empty]
    exact mem
  clear filled
  induction entries with
  | nil => rfl
  | cons entry rest ih =>
    obtain ⟨fresh, later⟩ := nodupKeys_cons.1 distinct
    have rebuilt : ofEntries rest = ⟨rest, later⟩ :=
      ih later fun other mem => each other (.tail _ mem)
    have absent : entry.1 ∉ (⟨rest, later⟩ : ListState κ ν) := fresh
    rw [ofEntries, foldr_cons, ← ofEntries, rebuilt,
      appendAll_new absent (each entry mem_cons_self), insert_of_notMem absent]

theorem Filled.throughObject {text : κ → Bytes} {coerced : κ → κ}
    (filled : state.Filled) : Filled (throughObject text coerced takeLast state) := by
  have written : ∀ key values, state.lookup key = some values → values ≠ [] := by
    rintro key values found rfl
    exact filled key found
  intro key empty
  exact throughObject_holds written (fun _ _ later _ => later) key [] empty rfl

theorem Filled.append (filled : state.Filled) (key : κ)
    (value : ν) : (state.append key value).Filled := by
  intro other
  by_cases same : other = key
  · subst same
    simp [ListState.append]
  · rw [ListState.append, lookup_insert_ne same]
    exact filled other

theorem Filled.appendAll (filled : state.Filled) (key : κ) (values : List ν) :
    (state.appendAll key values).Filled := by
  induction values generalizing state with
  | nil => exact filled
  | cons value values ih => exact ih (filled.append key value)

theorem Filled.clear (filled : state.Filled) (key : κ) : (state.clear key).Filled := by
  intro other
  by_cases same : other = key
  · subst same
    simp [ListState.clear]
  · rw [ListState.clear, lookup_erase_ne same]
    exact filled other

end ListState

end Weibo
