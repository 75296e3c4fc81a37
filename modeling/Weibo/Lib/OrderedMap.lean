import Mathlib.Data.List.Sort
import Mathlib.Order.Basic

/-!
# Maps ordered by their keys

A key-value store in the order of the keys, with point writes, range deletion and iteration over a
half-open range. Every operation is specified by the entries it leaves or returns.
-/

namespace Weibo

open List Option

structure OrderedMap (κ ν : Type) [LinearOrder κ] where
  entries : List (κ × ν)
  sorted : entries.Pairwise fun first second => first.1 < second.1

namespace OrderedMap

variable {κ ν : Type} [LinearOrder κ]

def empty : OrderedMap κ ν := ⟨[], .nil⟩

def get (map : OrderedMap κ ν) (key : κ) : Option ν :=
  (map.entries.find? fun entry => entry.1 = key).map Prod.snd

def InRange (low high key : κ) : Prop := ¬key < low ∧ key < high

instance (low high key : κ) : Decidable (InRange low high key) :=
  inferInstanceAs (Decidable (_ ∧ _))

def range (map : OrderedMap κ ν) (low high : κ) : List (κ × ν) :=
  map.entries.filter fun entry => InRange low high entry.1

def remove (map : OrderedMap κ ν) (condition : κ → Prop) [DecidablePred condition] :
    OrderedMap κ ν :=
  ⟨map.entries.filter fun entry => ¬condition entry.1, map.sorted.filter _⟩

def delete (map : OrderedMap κ ν) (key : κ) : OrderedMap κ ν := map.remove (· = key)

def deleteRange (map : OrderedMap κ ν) (low high : κ) : OrderedMap κ ν :=
  map.remove (InRange low high)

def written (entries : List (κ × ν)) (key : κ) (value : ν) : List (κ × ν) :=
  entries.filter (fun entry => entry.1 < key) ++
    (key, value) :: entries.filter fun entry => key < entry.1

theorem sorted_written {entries : List (κ × ν)}
    (sorted : entries.Pairwise fun first second => first.1 < second.1) (key : κ) (value : ν) :
    (written entries key value).Pairwise fun first second => first.1 < second.1 := by
  have after : ∀ entry ∈ entries.filter fun entry => key < entry.1, key < entry.1 :=
    fun entry mem => by simpa using (mem_filter.1 mem).2
  have before : ∀ entry ∈ entries.filter fun entry => entry.1 < key, entry.1 < key :=
    fun entry mem => by simpa using (mem_filter.1 mem).2
  apply pairwise_append.2
  refine ⟨sorted.filter _, pairwise_cons.2 ⟨after, sorted.filter _⟩, ?_⟩
  intro first low second high
  rcases mem_cons.1 high with same | high
  · rw [same]
    exact before first low
  · exact (before first low).trans (after second high)

def set (map : OrderedMap κ ν) (key : κ) (value : ν) : OrderedMap κ ν :=
  ⟨written map.entries key value, sorted_written map.sorted key value⟩

/-! ## What the operations leave -/

@[simp]
theorem not_mem_empty (entry : κ × ν) : entry ∉ (empty : OrderedMap κ ν).entries :=
  not_mem_nil

variable {map : OrderedMap κ ν} {key : κ} {value : ν} {entry : κ × ν}

theorem mem_set : entry ∈ (map.set key value).entries ↔
      entry = (key, value) ∨ entry ∈ map.entries ∧ entry.1 ≠ key := by
  simp only [set, written, mem_append, mem_filter, mem_cons, decide_eq_true_eq]
  constructor
  · rintro (⟨mem, low⟩ | same | ⟨mem, high⟩)
    · exact .inr ⟨mem, low.ne⟩
    · exact .inl same
    · exact .inr ⟨mem, high.ne'⟩
  · rintro (same | ⟨mem, differs⟩)
    · exact .inr (.inl same)
    · rcases lt_or_gt_of_ne differs with low | high
      · exact .inl ⟨mem, low⟩
      · exact .inr (.inr ⟨mem, high⟩)

theorem mem_remove {condition : κ → Prop} [DecidablePred condition] :
    entry ∈ (map.remove condition).entries ↔ entry ∈ map.entries ∧ ¬condition entry.1 := by
  simp [remove]

theorem mem_delete : entry ∈ (map.delete key).entries ↔ entry ∈ map.entries ∧ entry.1 ≠ key :=
  mem_remove

variable {low high : κ}

theorem mem_deleteRange : entry ∈ (map.deleteRange low high).entries ↔
      entry ∈ map.entries ∧ ¬InRange low high entry.1 :=
  mem_remove

theorem mem_range : entry ∈ map.range low high ↔ entry ∈ map.entries ∧
    InRange low high entry.1 := by
  simp [range]

/-! ## What the operations return -/

theorem unique {other : ν} (first : (key, value) ∈ map.entries)
    (second : (key, other) ∈ map.entries) : value = other := by
  have distinct : (map.entries.map Prod.fst).Nodup :=
    pairwise_map.2 (map.sorted.imp ne_of_lt)
  have same := inj_on_of_nodup_map distinct first second rfl
  exact (Prod.mk.inj same).2

theorem get_eq_some : map.get key = some value ↔ (key, value) ∈ map.entries := by
  constructor
  · intro found
    obtain ⟨entry, at_key, rfl⟩ := map_eq_some_iff.1 found
    have same : entry.1 = key := by simpa using List.find?_some at_key
    rw [← same]
    exact mem_of_find?_eq_some at_key
  · intro mem
    have some : (map.entries.find? fun entry => entry.1 = key).isSome := by
      rw [List.find?_isSome]
      exact ⟨_, mem, by simp⟩
    obtain ⟨entry, found⟩ := isSome_iff_exists.1 some
    have same : entry.1 = key := by simpa using List.find?_some found
    have inside : (key, entry.2) ∈ map.entries := by
      rw [← same]
      exact mem_of_find?_eq_some found
    rw [get, found, map_some, unique inside mem]

theorem get_eq_none : map.get key = none ↔ ∀ value, (key, value) ∉ map.entries := by
  rw [eq_none_iff_forall_not_mem]
  exact forall_congr' fun value => not_congr get_eq_some

theorem range_eq {listing : List (κ × ν)}
    (ordered : listing.Pairwise fun first second => first.1 < second.1)
    (same : ∀ entry, entry ∈ listing ↔ entry ∈ map.entries ∧ InRange low high entry.1) :
    map.range low high = listing := by
  have sorted : (map.range low high).Pairwise fun first second => first.1 < second.1 :=
    map.sorted.filter _
  have distinct : ∀ {entries : List (κ × ν)},
      (entries.Pairwise fun first second => first.1 < second.1) → entries.Nodup :=
    fun ordered => ordered.imp fun less same => less.ne (congrArg Prod.fst same)
  have perm : (map.range low high).Perm listing := by
    apply (perm_ext_iff_of_nodup (distinct sorted) (distinct ordered)).2
    intro entry
    rw [mem_range, same]
  apply perm.eq_of_pairwise _ sorted ordered
  intro first second _ _ forth back
  exact absurd back forth.asymm

end OrderedMap

end Weibo
