import Weibo.Source.WatermarkSource

/-!
# Watermarks over partitions

`WatermarkSource.Run` with one generator per partition and no idleness. Once every partition has a
generator, a watermark is at most the latest record of each partition, less the bound; so records
that keep to the bound are never behind a watermark in front of them.
-/

namespace Weibo.Source.WatermarkSource

open List Option

/-- What the loop of `Run` selects before the end of the stream. -/
inductive Event where
  | record (r : Record)
  | tick (dropped : Bool)

def records (events : List Event) : List Record :=
  events.filterMap fun
    | .record r => some r
    | .tick _ => none

/-- What `Run` sends before the end of the stream when no partition ever counts as idle. -/
def sent (ws : WatermarkSource) : List Event → List Record
  | [] => []
  | .record r :: rest => r :: (ws.onRecord r).sent rest
  | .tick dropped :: rest =>
    let ticked := ws.tick fun _ => false
    if ticked.2.isZero || dropped then ticked.1.sent rest
    else Record.newWatermark ticked.2 :: ticked.1.sent rest

/-- Within a partition a record is late by at most `bound`. -/
def Bounded (bound : Duration) (stream : List Record) : Prop :=
  stream.Pairwise fun earlier later =>
    partitionKey earlier = partitionKey later → earlier.timestamp - bound ≤ later.timestamp

def Announced (seen : List Record) (events : List Event) : Prop :=
  ∀ front dropped rest, events = front ++ .tick dropped :: rest →
    ∀ r ∈ records rest, ∃ q ∈ seen ++ records front, partitionKey q = partitionKey r

structure Dated (bound : Duration) (r : Record) : Prop where
  data : r.isMarker = false
  zero : Time.zero < r.timestamp
  late : Time.zero + bound < r.timestamp

def Precedes (x y : Record) : Prop :=
  x.isWatermark = true →
    (y.isWatermark = true → x.timestamp ≤ y.timestamp) ∧
      (y.isMarker = false → x.timestamp ≤ y.timestamp)

/-- The generators belong to the partitions of the records seen, and the last watermark, unless it
is zero, waits for each of them. -/
structure Waits (bound : Duration) (seen : List Record) (ws : WatermarkSource) : Prop where
  perPartition : ws.perPartition = true
  lateness : ws.generator.allowedLateness = bound
  keys : ∀ r ∈ seen, partitionKey r ∈ ws.parts
  parts : ∀ part ∈ ws.parts.entries, part.2.allowedLateness = bound ∧
    ∃ q ∈ seen, partitionKey q = part.1 ∧ part.2.maxTimestamp = q.timestamp
  zero_le : Time.zero ≤ ws.lastWM
  lastWM : ws.lastWM = Time.zero ∨ ∀ key ∈ ws.parts,
    ∃ q ∈ seen, partitionKey q = key ∧ ws.lastWM ≤ q.timestamp - bound

variable {bound : Duration} {seen stream : List Record} {ws : WatermarkSource} {events : List Event}

theorem waits_start (bound : Duration) :
    Waits bound [] { generator := ⟨bound, Time.zero⟩, perPartition := true } :=
  ⟨rfl, rfl, by simp, by simp, le_refl _, .inl rfl⟩

theorem getWatermark_of_dated {g : BoundedOutOfOrderness} {q : Record} (dated : Dated bound q)
    (same : g.allowedLateness = bound) (latest : g.maxTimestamp = q.timestamp) :
    g.getWatermark = q.timestamp - bound ∧ g.getWatermark.isZero = false := by
  have nonzero : g.maxTimestamp.isZero = false := by
    simp only [Time.isZero, decide_eq_false_iff_not, latest]
    exact ne_of_gt dated.zero
  have value : g.getWatermark = q.timestamp - bound := by
    rw [BoundedOutOfOrderness.getWatermark, nonzero, latest, same]
    rfl
  refine ⟨value, ?_⟩
  rw [value, Time.isZero, decide_eq_false_iff_not]
  exact ne_of_gt (Int.lt_sub_right_of_add_lt dated.late)

theorem foldl_lower_le (all : List (Sigma fun _ : PositionKey => BoundedOutOfOrderness))
    (least : Time) (nonzero : ∀ part ∈ all, part.2.getWatermark.isZero = false) :
    (least.isZero = false → all.foldl (lower fun _ => false) least ≤ least) ∧ ∀ part ∈ all,
    all.foldl (lower fun _ => false) least ≤ part.2.getWatermark := by
  induction all generalizing least with
  | nil => exact ⟨fun _ => le_refl _, by simp⟩
  | cons first rest ih =>
    have real := nonzero first mem_cons_self
    have step : lower (fun _ => false) least first =
        if least.isZero ∨ first.2.getWatermark < least then first.2.getWatermark else least := by
      simp [lower, real]
    obtain ⟨below, others⟩ := ih (lower (fun _ => false) least first)
      fun part mem => nonzero part (.tail _ mem)
    rw [foldl_cons]
    by_cases lowered : least.isZero ∨ first.2.getWatermark < least
    · rw [step, if_pos lowered] at below others ⊢
      refine ⟨fun nonempty => ?_, forall_mem_cons.2 ⟨below real, others⟩⟩
      have lower := lowered.resolve_left (by rw [nonempty]; exact Bool.false_ne_true)
      exact le_trans (below real) (le_of_lt lower)
    · rw [step, if_neg lowered] at below others ⊢
      obtain ⟨nonempty, above⟩ := not_or.1 lowered
      have least := below (Bool.eq_false_iff.2 nonempty)
      exact ⟨fun _ => least, forall_mem_cons.2 ⟨le_trans least (not_lt.1 above), others⟩⟩

variable {r : Record}

theorem Waits.onRecord (waits : Waits bound seen ws) (dated : Dated bound r)
    (known : ws.lastWM = Time.zero ∨ partitionKey r ∈ ws.parts) :
    Waits bound (seen ++ [r]) (ws.onRecord r) := by
  rw [WatermarkSource.onRecord, if_pos waits.perPartition]
  refine { waits with keys := fun q mem => ?_, parts := fun part mem => ?_, lastWM := ?_ }
  · rw [AList.mem_insert]
    rcases mem_append.1 mem with old | new
    · exact .inr (waits.keys q old)
    · rw [mem_singleton.1 new]
      exact .inl rfl
  · rw [AList.entries_insert] at mem
    rcases mem_cons.1 mem with rfl | kept
    · cases found : ws.parts.lookup (partitionKey r) with
      | none =>
        refine ⟨?_, r, by simp, rfl, ?_⟩
        · simp only [getD_none, BoundedOutOfOrderness.onRecord]
          split <;> exact waits.lateness
        · simp [BoundedOutOfOrderness.onRecord, dated.zero]
      | some g =>
        obtain ⟨same, q, mem, key, latest⟩ := waits.parts ⟨_, g⟩ (AList.mem_lookup_iff.1 found)
        simp only [getD_some, BoundedOutOfOrderness.onRecord]
        split
        · exact ⟨same, r, by simp, rfl, rfl⟩
        · exact ⟨same, q, mem_append_left _ mem, key, latest⟩
    · obtain ⟨same, q, mem, rest⟩ := waits.parts part (kerase_sublist _ _ |>.subset kept)
      exact ⟨same, q, mem_append_left _ mem, rest⟩
  · rcases known with zero | old
    · exact .inl zero
    · refine waits.lastWM.imp_right fun each key mem => ?_
      have present :
        key ∈ ws.parts := (AList.mem_insert _).1 mem |>.elim (fun same => same ▸ old) id
      obtain ⟨q, mem, rest⟩ := each key present
      exact ⟨q, mem_append_left _ mem, rest⟩

theorem Waits.tick (waits : Waits bound seen ws) (dated : ∀ r ∈ seen, Dated bound r) :
    Waits bound seen (ws.tick fun _ => false).1 ∧ (ws.tick fun _ => false).2 =
    (ws.tick fun _ => false).1.lastWM ∧ ws.lastWM ≤ (ws.tick fun _ => false).1.lastWM := by
  rw [WatermarkSource.tick, if_pos waits.perPartition]
  refine ⟨⟨waits.perPartition, waits.lateness, waits.keys, waits.parts,
    le_max_of_le_left waits.zero_le, ?_⟩, rfl, le_max_left _ _⟩
  change max _ _ = _ ∨ ∀ key ∈ ws.parts, ∃ q ∈ seen, partitionKey q = key ∧ max _ _ ≤ _
  rcases max_choice ws.lastWM (ws.partitionWatermark fun _ => false) with kept | raised
  · rw [kept]
    exact waits.lastWM
  · rw [raised]
    refine .inr fun key mem => ?_
    -- Each generator has seen a record, so no partition is left out of the minimum.
    have real : ∀ part ∈ ws.parts.entries, part.2.getWatermark.isZero = false := by
      intro part mem
      obtain ⟨same, q, mem, -, latest⟩ := waits.parts part mem
      exact (getWatermark_of_dated (dated q mem) same latest).2
    obtain ⟨g, found⟩ := isSome_iff_exists.1 (AList.lookup_isSome.2 mem)
    have entry := AList.mem_lookup_iff.1 found
    obtain ⟨same, q, mem, here, latest⟩ := waits.parts _ entry
    refine ⟨q, mem, here, ?_⟩
    rw [← (getWatermark_of_dated (dated q mem) same latest).1]
    exact (foldl_lower_le _ _ real).2 _ entry

theorem Waits.le_timestamp (waits : Waits bound seen ws) (known : ws.lastWM = Time.zero ∨
    partitionKey r ∈ ws.parts) (near : ∀ q ∈ seen, partitionKey q = partitionKey r →
    q.timestamp - bound ≤ r.timestamp) : ws.lastWM = Time.zero ∨ ws.lastWM ≤ r.timestamp := by
  rcases known with zero | old
  · exact .inl zero
  · refine waits.lastWM.imp_right fun each => ?_
    obtain ⟨q, mem, same, le⟩ := each _ old
    exact le_trans le (near q mem same)

theorem Announced.record (announced : Announced seen (.record r :: events)) :
    Announced (seen ++ [r]) events := by
  rintro front dropped rest rfl q mem
  simpa [records] using announced (.record r :: front) dropped rest rfl q mem

theorem Announced.tick {dropped : Bool} (announced : Announced seen (.tick dropped :: events)) :
    Announced seen events := by
  rintro front later rest rfl q mem
  simpa [records] using announced (.tick dropped :: front) later rest rfl q mem

theorem Waits.sent (waits : Waits bound seen ws) (bounded : Bounded bound (seen ++ records events))
    (dated : ∀ r ∈ seen ++ records events, Dated bound r) (announced : Announced seen events)
    (known : ws.lastWM = Time.zero ∨ ∀ r ∈ records events, partitionKey r ∈ ws.parts) :
    (ws.sent events).Pairwise Precedes ∧ ∀ x ∈ ws.sent events,
      (x.isWatermark = true → ws.lastWM ≤ x.timestamp) ∧
      (x.isMarker = false → ws.lastWM = Time.zero ∨ ws.lastWM ≤ x.timestamp) := by
  induction events generalizing seen ws with
  | nil => exact ⟨.nil, by simp [WatermarkSource.sent]⟩
  | cons event rest ih =>
    cases event with
    | record r =>
      change Bounded bound (seen ++ r :: records rest) at bounded
      change ∀ q ∈ seen ++ r :: records rest, _ at dated
      change ws.lastWM = _ ∨ ∀ q ∈ r :: records rest, _ at known
      have here := known.imp_right fun all => all r mem_cons_self
      have mine := dated r (by simp)
      have near : ∀ q ∈ seen, partitionKey q = partitionKey r → q.timestamp - bound ≤ r.timestamp :=
        fun q mem => (pairwise_append.1 bounded).2.2 q mem r mem_cons_self
      have same : (ws.onRecord r).lastWM = ws.lastWM := by
        rw [WatermarkSource.onRecord, if_pos waits.perPartition]
      have plain : r.isWatermark = false := (Bool.or_eq_false_iff.1 mine.data).2
      obtain ⟨ordered, later⟩ := ih (waits.onRecord mine here)
        (by rwa [append_assoc]) (by rwa [append_assoc]) announced.record (by
          rw [same, WatermarkSource.onRecord, if_pos waits.perPartition]
          exact known.imp_right fun all q mem =>
            (AList.mem_insert _).2 (.inr (all q (.tail _ mem))))
      rw [same] at later
      refine ⟨pairwise_cons.2 ⟨fun y _ never => ?_, ordered⟩, forall_mem_cons.2 ⟨?_, later⟩⟩
      · cases plain.symm.trans never
      · refine ⟨fun never => ?_, fun _ => waits.le_timestamp here near⟩
        cases plain.symm.trans never
    | tick dropped =>
      obtain ⟨kept, value, grown⟩ := waits.tick fun r mem => dated r (mem_append_left _ mem)
      have all : ∀ r ∈ records rest, partitionKey r ∈ (ws.tick fun _ => false).1.parts := by
        intro r mem
        obtain ⟨q, old, same⟩ := announced [] dropped rest rfl r mem
        rw [← same]
        exact kept.keys q (by simpa [records] using old)
      obtain ⟨ordered, later⟩ := ih kept bounded dated announced.tick (.inr all)
      have further : ∀ x ∈ (ws.tick fun _ => false).1.sent rest,
          (x.isWatermark = true → ws.lastWM ≤ x.timestamp) ∧
          (x.isMarker = false → ws.lastWM = Time.zero ∨ ws.lastWM ≤ x.timestamp) := by
        intro x mem
        refine ⟨fun is => le_trans grown ((later x mem).1 is), fun is => ?_⟩
        rcases (later x mem).2 is with zero | le
        · exact .inl (le_antisymm (zero ▸ grown) waits.zero_le)
        · exact .inr (le_trans grown le)
      rw [WatermarkSource.sent]
      split
      · exact ⟨ordered, further⟩
      · next emits =>
        have nonzero : (ws.tick fun _ => false).1.lastWM ≠ Time.zero := by
          rw [← value]
          simpa [Time.isZero] using (not_or.1 (mt Bool.or_eq_true_iff.2 emits)).1
        refine ⟨pairwise_cons.2 ⟨fun y mem _ => ?_, ordered⟩, forall_mem_cons.2 ⟨?_, further⟩⟩
        · change (_ → (ws.tick fun _ => false).2 ≤ _) ∧ (_ → (ws.tick fun _ => false).2 ≤ _)
          rw [value]
          exact ⟨(later y mem).1, fun data => ((later y mem).2 data).resolve_left nonzero⟩
        · refine ⟨fun _ => ?_, fun never => by cases never⟩
          change ws.lastWM ≤ (ws.tick fun _ => false).2
          rw [value]
          exact grown

/-- With one generator per partition and no idleness, for every bound and every interleaving of
records and ticks before which each partition has delivered, and records that keep to the bound of
their partition: the watermarks never decrease, and no record is older than a watermark in front of
it. -/
theorem partition_watermarks_safe (bound : Duration) (events : List Event)
    (announced : ∀ front dropped rest, events = front ++ .tick dropped :: rest →
      ∀ r ∈ records rest, ∃ q ∈ records front, partitionKey q = partitionKey r)
    (dated : ∀ r ∈ records events, Dated bound r) (bounded : Bounded bound (records events)) :
    let output := sent { generator := ⟨bound, Time.zero⟩, perPartition := true } events
    ((output.filter fun x => x.isWatermark).Pairwise fun a b => a.timestamp ≤ b.timestamp) ∧
    ∀ front wm rest, output = front ++ wm :: rest → wm.isWatermark = true →
      ∀ r ∈ rest, r.isMarker = false → wm.timestamp ≤ r.timestamp := by
  intro output
  have ordered : output.Pairwise Precedes :=
    ((waits_start bound).sent bounded dated announced (.inl rfl)).1
  refine ⟨(ordered.filter _).imp_of_mem fun {a b} mem mem' precedes => ?_, ?_⟩
  · exact (precedes (mem_filter.1 mem).2).1 (mem_filter.1 mem').2
  · intro front wm rest same watermark r mem data
    rw [same] at ordered
    have behind := (pairwise_append.1 ordered).2.1
    exact ((pairwise_cons.1 behind).1 r mem watermark).2 data

/-- Two partitions, of which the second lags: the watermark waits for it. -/
theorem second_partition_safe :
    let output := sent { generator := ⟨5, Time.zero⟩, perPartition := true }
      [.record { timestamp := 100 }, .record { timestamp := 20, partition := 1 }, .tick false,
        .record { timestamp := 15, partition := 1 }]
    output.map (fun x => x.timestamp) = [100, 20, 15, 15] ∧
    (output.filter fun x => x.isWatermark).Pairwise fun a b => a.timestamp ≤ b.timestamp := by
  refine ⟨by decide, (partition_watermarks_safe 5 _ ?_ ?_ ?_).1⟩
  · intro front dropped rest same
    simp only [cons_eq_append_iff, nil_eq_append_iff, reduceCtorEq, false_and, and_false, or_false,
      cons.injEq, false_or, exists_false] at same
    obtain ⟨a, rfl, b, rfl, rfl, -, rfl⟩ := same
    simp [records, partitionKey]
  · simp only [records, filterMap_cons, filterMap_nil, forall_mem_cons, not_mem_nil]
    exact ⟨⟨rfl, by decide, by decide⟩, ⟨rfl, by decide, by decide⟩, ⟨rfl, by decide, by decide⟩,
      by simp⟩
  · simp [Bounded, records, partitionKey]

end Weibo.Source.WatermarkSource
