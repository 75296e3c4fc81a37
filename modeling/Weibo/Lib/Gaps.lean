import Mathlib.Data.List.Perm.Basic
import Mathlib.Data.List.Sort
import Mathlib.Data.List.SplitBy
import Mathlib.Order.MinMax

/-!
# Points that are closer than a gap

Consecutive points of a chain are closer than the gap, and different chains are at least the gap
apart. A cluster is a chain with the interval from its first point to the gap behind its last. A new
point joins all clusters that its own interval meets.
-/

namespace Gaps

open List Option

def chains (gap : Int) (points : List Int) : List (List Int) :=
  (points.mergeSort (· ≤ ·)).splitBy fun a b => decide (b - a < gap)

def Linked (gap : Int) (points : List Int) : Prop :=
  ∀ x, (∃ a ∈ points, a < x) → (∃ b ∈ points, x ≤ b) → ∃ t ∈ points, t < x ∧ x < t + gap

/-- The points form one chain, from `start` to the gap before `stop`. -/
structure Cluster (gap start stop : Int) (points : List Int) : Prop where
  first : start ∈ points
  lower : ∀ t ∈ points, start ≤ t
  last : stop - gap ∈ points
  upper : ∀ t ∈ points, t + gap ≤ stop
  linked : Linked gap points

def Apart (start stop start' stop' : Int) : Prop := stop ≤ start' ∨ stop' ≤ start

variable {gap start stop : Int} {points : List Int}

theorem cluster_singleton (gap t : Int) : Cluster gap t (t + gap) [t] where
  first := mem_singleton_self t
  lower := by simp
  last := by simp
  upper := by simp
  linked := by
    intro x before behind
    simp only [mem_singleton, exists_eq_left] at before behind
    omega

variable {others : List Int}

theorem Cluster.congr (cluster : Cluster gap start stop points)
    (same : ∀ t, t ∈ others ↔ t ∈ points) : Cluster gap start stop others := by
  refine ⟨(same _).2 cluster.first, fun t mem => cluster.lower t ((same t).1 mem),
    (same _).2 cluster.last, fun t mem => cluster.upper t ((same t).1 mem), ?_⟩
  intro x before behind
  simp only [same] at before behind ⊢
  exact cluster.linked x before behind

theorem Cluster.wide (cluster : Cluster gap start stop points) : start + gap ≤ stop :=
  cluster.upper start cluster.first

variable {t : Int}

theorem Cluster.insert (cluster : Cluster gap start stop points) (going : t < stop)
    (near : start < t + gap) : Cluster gap (min start t) (max stop (t + gap)) (points ++ [t]) := by
  have first := cluster.first
  have last := cluster.last
  refine ⟨?_, ?_, ?_, ?_, ?_⟩
  · rcases min_choice start t with same | same <;> simp [same, first]
  · intro p mem
    rcases mem_append.1 mem with old | new
    · have lower := cluster.lower p old
      omega
    · rw [mem_singleton.1 new]
      omega
  · rcases max_choice stop (t + gap) with same | same <;> simp [same, last]
  · intro p mem
    rcases mem_append.1 mem with old | new
    · have upper := cluster.upper p old
      omega
    · rw [mem_singleton.1 new]
      omega
  · intro x before behind
    obtain ⟨a, mem_a, lt⟩ := before
    obtain ⟨b, mem_b, le⟩ := behind
    by_cases inside : (∃ a ∈ points, a < x) ∧ ∃ b ∈ points, x ≤ b
    · obtain ⟨p, mem, close⟩ := cluster.linked x inside.1 inside.2
      exact ⟨p, mem_append_left _ mem, close⟩
    · -- the point is in front of the cluster or behind it, and the hole is next to it
      rw [not_and_or] at inside
      rcases inside with front | back
      · have ahead : x ≤ start := by
          by_contra later
          exact front ⟨start, first, by omega⟩
        have own : a = t := by
          rcases mem_append.1 mem_a with old | new
          · exact absurd ⟨a, old, lt⟩ front
          · exact mem_singleton.1 new
        exact ⟨t, by simp, by omega, by omega⟩
      · have behind : stop - gap < x := by
          by_contra earlier
          exact back ⟨stop - gap, last, by omega⟩
        have own : b = t := by
          rcases mem_append.1 mem_b with old | new
          · exact absurd ⟨b, old, le⟩ back
          · exact mem_singleton.1 new
        exact ⟨stop - gap, by simp [last], by omega, by omega⟩

theorem Cluster.union (cluster : Cluster gap start stop points) {start' stop' : Int}
    (other : Cluster gap start' stop' others) (here : t ∈ points)
    (there : t ∈ others) : Cluster gap (min start start') (max stop stop') (points ++ others) := by
  refine ⟨?_, ?_, ?_, ?_, ?_⟩
  · rcases min_choice start start' with same | same <;> simp [same, cluster.first, other.first]
  · intro p mem
    rcases mem_append.1 mem with left | right
    · have lower := cluster.lower p left
      omega
    · have lower := other.lower p right
      omega
  · rcases max_choice stop stop' with same | same <;> simp [same, cluster.last, other.last]
  · intro p mem
    rcases mem_append.1 mem with left | right
    · have upper := cluster.upper p left
      omega
    · have upper := other.upper p right
      omega
  · rintro x ⟨a, mem_a, lt⟩ ⟨b, mem_b, le⟩
    -- the common point is on one side of `x` and completes the bracket in one of the clusters
    have bracket : (∃ a ∈ points, a < x) ∧ (∃ b ∈ points, x ≤ b) ∨
        (∃ a ∈ others, a < x) ∧ ∃ b ∈ others, x ≤ b := by
      rcases lt_or_ge t x with ahead | behind
      · rcases mem_append.1 mem_b with left | right
        · exact .inl ⟨⟨t, here, ahead⟩, b, left, le⟩
        · exact .inr ⟨⟨t, there, ahead⟩, b, right, le⟩
      · rcases mem_append.1 mem_a with left | right
        · exact .inl ⟨⟨a, left, lt⟩, t, here, behind⟩
        · exact .inr ⟨⟨a, right, lt⟩, t, there, behind⟩
    rcases bracket with ⟨before, behind⟩ | ⟨before, behind⟩
    · obtain ⟨p, mem, close⟩ := cluster.linked x before behind
      exact ⟨p, mem_append_left _ mem, close⟩
    · obtain ⟨p, mem, close⟩ := other.linked x before behind
      exact ⟨p, mem_append_right _ mem, close⟩

theorem Cluster.join (cluster : Cluster gap start stop points) {start' stop' : Int}
    (here : t ∈ points) (other : Cluster gap start' stop' others) (going : t < stop') (near :
    start' < t + gap) : Cluster gap (min start start') (max stop stop') (points ++ others) := by
  have whole := cluster.union (other.insert going near) here (by simp)
  have lower := cluster.lower t here
  have upper := cluster.upper t here
  have starts : min start (min start' t) = min start start' := by omega
  have stops : max stop (max stop' (t + gap)) = max stop stop' := by omega
  rw [starts, stops] at whole
  refine whole.congr fun p => ?_
  simp only [mem_append, mem_singleton]
  constructor
  · rintro (left | right)
    · exact .inl left
    · exact .inr (.inl right)
  · rintro (left | right | rfl)
    · exact .inl left
    · exact .inr right
    · exact .inl here

variable {γ : Type}

theorem Cluster.joinAll (starts stops : γ → Int) (times : γ → List Int)
    {found : List γ} (each : ∀ c ∈ found, Cluster gap (starts c) (stops c) (times c) ∧
      t < stops c ∧ starts c < t + gap) (cluster : Cluster gap start stop points) (here :
        t ∈ points) :
    Cluster gap ((found.map starts).foldl min start) ((found.map stops).foldl max stop)
      (points ++ found.flatMap times) := by
  induction found generalizing start stop points with
  | nil => simpa using cluster
  | cons c found ih =>
    obtain ⟨other, going, near⟩ := each c mem_cons_self
    have joined := ih (fun c mem => each c (.tail _ mem)) (cluster.join here other going near)
      (mem_append_left _ here)
    simpa using joined

theorem apart_joinAll (starts stops : γ → Int) {found : List γ}
    (meets : ∀ c ∈ found, t < stops c ∧ starts c < t + gap) (nonempty : start < stop) (other :
    ∀ c ∈ found, Apart (starts c) (stops c) start stop) (own : Apart t (t + gap) start stop) : Apart
    ((found.map starts).foldl min t) ((found.map stops).foldl max (t + gap)) start stop := by
  rcases own with behind | ahead
  · left
    have later : ∀ c ∈ found, stops c ≤ start := by
      intro c mem
      have near := meets c mem
      rcases other c mem with after | before <;> omega
    refine foldlRecOn (motive := fun bound => bound ≤ start) _ _ behind fun bound le stop' mem => ?_
    obtain ⟨c, inside, rfl⟩ := List.mem_map.1 mem
    have after := later c inside
    omega
  · right
    have earlier : ∀ c ∈ found, stop ≤ starts c := by
      intro c mem
      have near := meets c mem
      rcases other c mem with after | before <;> omega
    refine foldlRecOn (motive := fun bound => stop ≤ bound) _ _ ahead fun bound le start' mem => ?_
    obtain ⟨c, inside, rfl⟩ := List.mem_map.1 mem
    have before := earlier c inside
    omega

/-! ## Clusters are chains -/

theorem chains_perm (perm : points.Perm others) : chains gap points = chains gap others := by
  have same : points.mergeSort (· ≤ ·) = others.mergeSort (· ≤ ·) :=
    Perm.eq_of_sortedLE sortedLE_mergeSort sortedLE_mergeSort
      ((mergeSort_perm _ _).trans (perm.trans (mergeSort_perm _ _).symm))
  rw [chains, same, chains]

theorem Cluster.head? (cluster : Cluster gap start stop points) :
    (points.mergeSort (· ≤ ·)).head? = some start := by
  have members : ∀ t, t ∈ points.mergeSort (· ≤ ·) ↔ t ∈ points := fun t => mem_mergeSort
  have sorted : (points.mergeSort (· ≤ ·)).Pairwise (· ≤ ·) := sortedLE_mergeSort.pairwise
  cases split : points.mergeSort (· ≤ ·) with
  | nil => simpa [split] using (members start).2 cluster.first
  | cons t rest =>
    rw [split] at sorted members
    have lower := cluster.lower t ((members t).1 mem_cons_self)
    have least : t ≤ start := by
      rcases mem_cons.1 ((members start).2 cluster.first) with same | later
      · omega
      · exact (pairwise_cons.1 sorted).1 start later
    rw [List.head?_cons, some.injEq]
    omega

theorem Cluster.getLast? (cluster : Cluster gap start stop points) :
    (points.mergeSort (· ≤ ·)).getLast? = some (stop - gap) := by
  have members : ∀ t, t ∈ points.mergeSort (· ≤ ·) ↔ t ∈ points := fun t => mem_mergeSort
  have sorted : (points.mergeSort (· ≤ ·)).Pairwise (· ≤ ·) := sortedLE_mergeSort.pairwise
  rcases eq_nil_or_concat (points.mergeSort (· ≤ ·)) with empty | ⟨front, t, split⟩
  · simpa [empty] using (members start).2 cluster.first
  · rw [concat_eq_append] at split
    rw [split] at sorted members ⊢
    have upper := cluster.upper t ((members t).1 (by simp))
    have greatest : stop - gap ≤ t := by
      rcases mem_append.1 ((members (stop - gap)).2 cluster.last) with earlier | same
      · exact (pairwise_append.1 sorted).2.2 _ earlier t mem_cons_self
      · rw [mem_singleton.1 same]
    rw [List.getLast?_concat, some.injEq]
    omega

theorem Cluster.isChain (positive : 0 < gap) (cluster : Cluster gap start stop points) :
    (points.mergeSort (· ≤ ·)).IsChain fun a b => decide (b - a < gap) = true := by
  have sorted : (points.mergeSort (· ≤ ·)).SortedLE := sortedLE_mergeSort
  have members : ∀ t, t ∈ points.mergeSort (· ≤ ·) ↔ t ∈ points := fun t => mem_mergeSort
  rw [isChain_iff_forall_rel_of_append_cons_cons]
  intro a b front back split
  have pairs := sorted.pairwise
  rw [split, pairwise_append, pairwise_cons, pairwise_cons] at pairs
  obtain ⟨-, ⟨le, later, -⟩, across⟩ := pairs
  have ordered : a ≤ b := le b mem_cons_self
  rcases Int.lt_or_eq_of_le ordered with strict | rfl
  · have mem_a : a ∈ points := (members a).1 (by simp [split])
    have mem_b : b ∈ points := (members b).1 (by simp [split])
    obtain ⟨t, mem, before, close⟩ := cluster.linked b ⟨a, mem_a, strict⟩ ⟨b, mem_b, le_refl b⟩
    -- every point in front of `b` is in front of `a` or `a` itself
    have nearest : t ≤ a := by
      have inside := (members t).2 mem
      rw [split, mem_append, mem_cons, mem_cons] at inside
      rcases inside with front | rfl | rfl | back
      · exact across t front a mem_cons_self
      · exact le_refl t
      · omega
      · have behind := later t back
        omega
    simp only [decide_eq_true_eq]
    omega
  · simp only [decide_eq_true_eq]
    omega

theorem chains_of_clusters (positive : 0 < gap) (starts stops : γ → Int) (times : γ → List Int)
    {clusters : List γ} (each : ∀ c ∈ clusters, Cluster gap (starts c) (stops c) (times c))
    (ordered : clusters.Pairwise fun c d => stops c ≤ starts d) {points : List Int}
    (perm : (clusters.flatMap times).Perm points) : chains gap points = clusters.map fun c =>
    (times c).mergeSort (· ≤ ·) := by
  let sort := fun c => (times c).mergeSort (· ≤ ·)
  have members : ∀ c t, t ∈ sort c ↔ t ∈ times c := fun c t => mem_mergeSort
  have spread : clusters.Pairwise fun c d => ∀ a ∈ sort c, ∀ b ∈ sort d, a + gap ≤ b := by
    refine ordered.imp_of_mem fun {c d} mem_c mem_d le a mem_a b mem_b => ?_
    have upper := (each c mem_c).upper a ((members c a).1 mem_a)
    have lower := (each d mem_d).lower b ((members d b).1 mem_b)
    omega
  have sorted : (clusters.map sort).flatten.SortedLE := by
    rw [sortedLE_iff_pairwise, pairwise_flatten, pairwise_map]
    refine ⟨fun part mem => ?_, spread.imp fun apart a mem_a b mem_b => ?_⟩
    · obtain ⟨c, -, rfl⟩ := List.mem_map.1 mem
      exact sortedLE_mergeSort.pairwise
    · have close := apart a mem_a b mem_b
      omega
  have same : points.mergeSort (· ≤ ·) = (clusters.map sort).flatten := by
    refine Perm.eq_of_sortedLE sortedLE_mergeSort sorted ?_
    refine (mergeSort_perm _ _).trans (perm.symm.trans ?_)
    rw [← flatMap_def]
    exact Perm.flatMap_left clusters fun c _ => (mergeSort_perm _ _).symm
  have nonempty : ∀ c ∈ clusters, sort c ≠ [] := fun c mem empty => by
    have first := (members c _).2 (each c mem).first
    rw [empty] at first
    cases first
  rw [chains, same]
  refine splitBy_flatten ?_ ?_ ?_
  · intro mem
    obtain ⟨c, inside, empty⟩ := List.mem_map.1 mem
    exact nonempty c inside empty
  · intro part mem
    obtain ⟨c, inside, rfl⟩ := List.mem_map.1 mem
    exact (each c inside).isChain positive
  · rw [isChain_map]
    refine List.Pairwise.isChain (spread.imp_of_mem fun {c d} mem_c mem_d apart => ?_)
    refine ⟨nonempty c mem_c, nonempty d mem_d, ?_⟩
    have far := apart _ (getLast_mem (nonempty c mem_c)) _ (head_mem (nonempty d mem_d))
    simp only [decide_eq_false_iff_not]
    omega

end Gaps
