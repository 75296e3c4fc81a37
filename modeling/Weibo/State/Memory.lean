import Mathlib.Data.List.AList
import Mathlib.Data.List.Permutation
import Weibo.Types.Record

/-!
# Keyed state of the memory backend

`ValueState` holds one value per key and `ListState` a list per key, as Go maps, with the values
decoded. `Keys` lists the keys in an order that Go leaves open: every listing takes the order as a
number, and all orders occur.
-/

namespace Weibo

open List Option AList

/-- A listing of the keys of a map, in the order with the number `choice`. -/
def arrange {κ : Type} (choice : Nat) (keys : List κ) : List κ :=
  keys.permutations.getD choice keys

variable {κ : Type}

theorem arrange_perm (choice : Nat) (keys : List κ) : (arrange choice keys).Perm keys := by
  rw [arrange, getD_eq_getElem?_getD]
  cases found : keys.permutations[choice]? with
  | none => exact .refl _
  | some listing => exact mem_permutations.1 (mem_of_getElem? found)

@[simp]
theorem arrange_nil (choice : Nat) : arrange choice ([] : List κ) = [] :=
  (arrange_perm choice []).eq_nil

theorem arrange_singleton (choice : Nat) (key : κ) : arrange choice [key] = [key] :=
  perm_singleton.1 (arrange_perm choice [key])

theorem arrange_pair (a b : κ) : arrange 1 [a, b] = [b, a] := by
  simp [arrange, permutations, permutationsAux_cons, permutationsAux2]

/-- `memoryValueState`, the values of one namespace. -/
abbrev ValueState (κ ν : Type) := AList fun _ : κ => ν

/-- `memoryListState`, the lists of one namespace. -/
abbrev ListState (κ ν : Type) := AList fun _ : κ => List ν

namespace ListState

variable {κ ν : Type} [DecidableEq κ]

/-- `GetAll` after `SetKey`. -/
def getAll (state : ListState κ ν) (key : κ) : List ν := (state.lookup key).getD []

/-- `Append` after `SetKey`. -/
def append (state : ListState κ ν) (key : κ) (value : ν) : ListState κ ν :=
  state.insert key (state.getAll key ++ [value])

/-- `Clear` after `SetKey`. -/
def clear (state : ListState κ ν) (key : κ) : ListState κ ν := state.erase key

/-- A run of `Append` after `SetKey`: nothing is stored for an empty list. -/
def appendAll (state : ListState κ ν) (key : κ) (values : List ν) : ListState κ ν :=
  values.foldl (fun state value => state.append key value) state

/-! ## What a state holds -/

theorem getAll_clear (state : ListState κ ν) (key other : κ) :
    (state.clear key).getAll other = if other = key then [] else state.getAll other := by
  by_cases same : other = key
  · subst same
    simp [getAll, clear]
  · simp [getAll, clear, same, lookup_erase_ne same]

theorem getAll_append (state : ListState κ ν) (key other : κ) (value : ν) :
    (state.append key value).getAll other =
      if other = key then state.getAll key ++ [value] else state.getAll other := by
  by_cases same : other = key
  · subst same
    simp [getAll, append]
  · simp [getAll, append, same, lookup_insert_ne same]

theorem mem_keys_append (state : ListState κ ν) (key other : κ) (value : ν) :
    other ∈ (state.append key value).keys ↔ other = key ∨ other ∈ state.keys := by
  rw [← AList.mem_keys, ← AList.mem_keys, append, mem_insert]

theorem mem_keys_clear (state : ListState κ ν) (key other : κ) :
    other ∈ (state.clear key).keys ↔ other ≠ key ∧ other ∈ state.keys := by
  rw [← AList.mem_keys, ← AList.mem_keys, clear, mem_erase]

theorem getAll_appendAll (state : ListState κ ν) (key other : κ) (values : List ν) :
    (state.appendAll key values).getAll other =
      if other = key then state.getAll key ++ values else state.getAll other := by
  induction values generalizing state with
  | nil =>
    by_cases same : other = key <;> simp [appendAll, same]
  | cons value values ih =>
    have step : state.appendAll key (value :: values) =
      (state.append key value).appendAll key values := rfl
    rw [step, ih, getAll_append, getAll_append]
    by_cases same : other = key <;> simp [same]

theorem mem_keys_appendAll (state : ListState κ ν) (key other : κ) (values : List ν) : other ∈
    (state.appendAll key values).keys ↔ (other = key ∧ values ≠ []) ∨ other ∈ state.keys := by
  induction values generalizing state with
  | nil => simp [appendAll]
  | cons value values ih =>
    have step : state.appendAll key (value :: values) =
      (state.append key value).appendAll key values := rfl
    rw [step, ih, mem_keys_append]
    by_cases same : other = key <;> simp [same]

theorem getAll_clearAll (state : ListState κ ν) (keys : List κ) (other : κ) :
    (keys.foldl clear state).getAll other = if other ∈ keys then [] else state.getAll other := by
  induction keys generalizing state with
  | nil => simp
  | cons key keys ih =>
    rw [foldl_cons, ih, getAll_clear]
    by_cases same : other = key <;> by_cases inside : other ∈ keys <;> simp [same, inside]

theorem mem_keys_clearAll (state : ListState κ ν) (keys : List κ) (other : κ) :
    other ∈ (keys.foldl clear state).keys ↔ other ∉ keys ∧ other ∈ state.keys := by
  induction keys generalizing state with
  | nil => simp
  | cons key keys ih =>
    rw [foldl_cons, ih, mem_keys_clear, mem_cons, not_or]
    constructor
    · rintro ⟨absent, differs, inside⟩
      exact ⟨⟨differs, absent⟩, inside⟩
    · rintro ⟨⟨differs, absent⟩, inside⟩
      exact ⟨absent, differs, inside⟩

variable {key : κ}

theorem getAll_of_not_mem {state : ListState κ ν}
    (absent : key ∉ state.keys) : state.getAll key = [] := by
  have none : state.lookup key = none := lookup_eq_none.2 absent
  rw [getAll, none]
  rfl

abbrev Entry (κ ν : Type) := Sigma fun _ : κ => List ν

theorem getAll_of_mem_entries {state : ListState κ ν} {entry : Entry κ ν}
    (mem : entry ∈ state.entries) : entry.1 ∈ state.keys ∧ state.getAll entry.1 = entry.2 := by
  have found : state.lookup entry.1 = some entry.2 := mem_lookup_iff.2 mem
  refine ⟨List.mem_map_of_mem mem, ?_⟩
  rw [getAll, found]
  rfl

/-! ## Taking entries out -/

def Splits (taken : List (Entry κ ν)) (whole rest : ListState κ ν) : Prop :=
  whole.entries.Perm (rest.entries ++ taken)

variable {taken : List (Entry κ ν)} {whole rest : ListState κ ν}

omit [DecidableEq κ] in
theorem Splits.keys (splits : Splits taken whole rest) :
    whole.keys.Perm (rest.keys ++ taken.keys) := by
  have mapped := Perm.map Sigma.fst splits
  rwa [map_append] at mapped

omit [DecidableEq κ] in
theorem Splits.disjoint (splits : Splits taken whole rest)
    (mem : key ∈ taken.keys) : key ∉ rest.keys := by
  have distinct : (rest.keys ++ taken.keys).Nodup := splits.keys.nodup_iff.1 whole.keys_nodup
  exact fun inside => (nodup_append.1 distinct).2.2 key inside key mem rfl

omit [DecidableEq κ] in
theorem Splits.mem_keys (splits : Splits taken whole rest) (mem : key ∈ rest.keys) :
    key ∈ whole.keys := splits.keys.mem_iff.2 (mem_append_left _ mem)

omit [DecidableEq κ] in
theorem Splits.rest_nil (splits : Splits taken whole rest) (all : taken.keys.Perm whole.keys) :
    rest.entries = [] := by
  have lengths : whole.entries.length = (rest.entries ++ taken).length := splits.length_eq
  have same : taken.length = whole.entries.length := by
    have mapped := all.length_eq
    rwa [List.keys, length_map, AList.keys, List.keys, length_map] at mapped
  rw [length_append, same] at lengths
  exact length_eq_zero_iff.1 (by omega)

theorem Splits.getAll (splits : Splits taken whole rest) (outside : key ∉ taken.keys) :
    whole.getAll key = rest.getAll key := by
  have found : whole.lookup key = rest.lookup key := by
    rw [AList.lookup, perm_dlookup key whole.nodupKeys splits, dlookup_append,
      dlookup_eq_none.2 outside, or_none]
    rfl
  rw [ListState.getAll, found]
  rfl

theorem Splits.clear (splits : Splits taken whole rest) (outside : key ∉ taken.keys) :
    Splits taken (whole.clear key) (rest.clear key) := by
  have erased := Perm.kerase (a := key) whole.nodupKeys splits
  have frame : kerase key (rest.entries ++ taken) = kerase key rest.entries ++ taken := by
    by_cases inside : key ∈ rest.entries.keys
    · exact kerase_append_left inside
    · rw [kerase_append_right inside, kerase_of_notMem_keys outside,
        kerase_of_notMem_keys inside]
  rw [frame] at erased
  exact erased

theorem Splits.append (splits : Splits taken whole rest) (outside : key ∉ taken.keys)
    (value : ν) : Splits taken (whole.append key value) (rest.append key value) := by
  rw [Splits, ListState.append, ListState.append, entries_insert, entries_insert,
    splits.getAll outside, cons_append]
  exact .cons _ (splits.clear outside)

theorem Splits.clearAll (splits : Splits taken whole rest) {keys : List κ}
    (outside : ∀ key ∈ keys, key ∉ taken.keys) :
    Splits taken (keys.foldl ListState.clear whole) (keys.foldl ListState.clear rest) := by
  induction keys generalizing whole rest with
  | nil => exact splits
  | cons key keys ih =>
    exact ih (splits.clear (outside key mem_cons_self)) fun key mem =>
      outside key (.tail _ mem)

theorem Splits.take (splits : Splits taken whole rest) (inside : key ∈ rest.keys) :
    Splits (taken ++ [⟨key, rest.getAll key⟩]) whole (rest.clear key) := by
  obtain ⟨value, front, back, absent, split, erased⟩ := exists_of_kerase (a := key) inside
  have held : rest.getAll key = value := by
    have found : rest.lookup key = some value := by
      rw [AList.lookup, split, dlookup_append, dlookup_eq_none.2 absent,
        dlookup_cons_eq, none_or]
    rw [ListState.getAll, found]
    rfl
  have cleared : (rest.clear key).entries = front ++ back := erased
  rw [Splits, held, cleared]
  refine Perm.trans splits ?_
  rw [split]
  have moved :
    (front ++ ⟨key, value⟩ :: back ++ taken).Perm (⟨key, value⟩ :: (front ++ back ++ taken)) := by
    rw [append_assoc, append_assoc, cons_append]
    exact perm_middle
  rw [← append_assoc (front ++ back)]
  exact moved.trans (perm_append_singleton _ _).symm

/-! ## The values with their keys -/

def pairs (state : ListState κ ν) : List (κ × ν) :=
  state.entries.flatMap fun entry => entry.2.map (Prod.mk entry.1)

omit [DecidableEq κ] in
theorem Splits.pairs (splits : Splits taken whole rest) :
    whole.pairs.Perm (rest.pairs ++ taken.flatMap fun entry => entry.2.map (Prod.mk entry.1)) := by
  have mapped := splits.flatMap_right fun entry => entry.2.map (Prod.mk entry.1)
  rwa [flatMap_append] at mapped

theorem pairs_clear (state : ListState κ ν) (key : κ) :
    state.pairs.Perm ((state.clear key).pairs ++ (state.getAll key).map (Prod.mk key)) := by
  by_cases inside : key ∈ state.keys
  · have whole : Splits [] state state := by simp [Splits]
    simpa using (whole.take inside).pairs
  · have same : (state.clear key).entries = state.entries := kerase_of_notMem_keys inside
    rw [getAll_of_not_mem inside, map_nil, append_nil, pairs, pairs, same]

theorem pairs_append (state : ListState κ ν) (key : κ) (value : ν) :
    (state.append key value).pairs.Perm (state.pairs ++ [(key, value)]) := by
  have entries : (state.append key value).pairs =
      (state.getAll key ++ [value]).map (Prod.mk key) ++ (state.clear key).pairs := by
    rw [pairs, append, entries_insert, flatMap_cons]
    rfl
  rw [entries, map_append]
  have cleared := (state.pairs_clear key).append_right [(key, value)]
  refine Perm.trans ?_ cleared.symm
  rw [append_assoc (state.clear key).pairs]
  exact perm_append_comm

theorem pairs_appendAll (state : ListState κ ν) (key : κ) (values : List ν) :
    (state.appendAll key values).pairs.Perm (state.pairs ++ values.map (Prod.mk key)) := by
  induction values generalizing state with
  | nil => simp [appendAll]
  | cons value values ih =>
    have later := (ih (state.append key value)).trans
      ((state.pairs_append key value).append_right (values.map (Prod.mk key)))
    simpa [appendAll] using later

theorem pairs_clearAll (state : ListState κ ν) {keys : List κ} (distinct : keys.Nodup) :
    state.pairs.Perm ((keys.foldl clear state).pairs ++
      keys.flatMap fun key => (state.getAll key).map (Prod.mk key)) := by
  induction keys generalizing state with
  | nil => simp
  | cons key keys ih =>
    obtain ⟨absent, distinct⟩ := nodup_cons.1 distinct
    have others : (keys.flatMap fun other => ((state.clear key).getAll other).map (Prod.mk other)) =
        keys.flatMap fun other => (state.getAll other).map (Prod.mk other) := by
      refine flatMap_congr fun other mem => ?_
      have differs : other ≠ key := fun same => absent (same ▸ mem)
      rw [getAll_clear, if_neg differs]
    have later := ih (state.clear key) distinct
    rw [others] at later
    refine (state.pairs_clear key).trans ((later.append_right _).trans ?_)
    rw [foldl_cons, flatMap_cons, append_assoc]
    exact perm_append_comm.append_left _

end ListState

end Weibo
