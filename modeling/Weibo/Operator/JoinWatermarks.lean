import Weibo.Operator.JoinRuns

/-!
# The watermarks behind a join

The join passes on the smaller of its two watermarks, each time it grows. A joined record is as late
as the later one of its two records, so none is older than a watermark in front of it.
-/

namespace Weibo

open List Option Bool

open Chain (Runs)

theorem JoinClock.emitted_advance (clock : JoinClock) (r : Record) :
    ((clock.advance r).2 = [] ∧ (clock.advance r).1.emittedWatermark = clock.emittedWatermark) ∨
      ((clock.advance r).2 = [Record.newWatermark (clock.advance r).1.aligned] ∧
        (clock.advance r).1.emittedWatermark = (clock.advance r).1.aligned ∧
        (clock.advance r).1.aligned.isZero = false ∧
        clock.emittedWatermark < (clock.advance r).1.aligned) := by
  have kept :
    ∀ after, clock.observe r = some after → after.emittedWatermark = clock.emittedWatermark := by
    intro after observed
    simp only [observe] at observed
    split at observed
    · exact some.inj observed ▸ rfl
    · split at observed
      · exact some.inj observed ▸ rfl
      · split at observed
        · exact some.inj observed ▸ rfl
        · cases observed
  simp only [advance]
  cases observed : clock.observe r with
  | none => exact .inl ⟨rfl, rfl⟩
  | some after =>
    have same := kept after observed
    dsimp only
    split
    · exact .inl ⟨rfl, same⟩
    next nonzero =>
      split
      next grown =>
        exact .inr ⟨rfl, rfl, eq_false_of_ne_true nonzero, same ▸ grown⟩
      · exact .inl ⟨rfl, same⟩

namespace IntervalJoinOperator

section Watermarks

variable [JoinText] {op after q : IntervalJoinOperator} {r : Record} {input sends sent :
    List Record}

structure Behind (op : IntervalJoinOperator) : Prop where
  started : Time.zero ≤ op.clock.emittedWatermark
  sides : ∀ s, op.clock.emittedWatermark ≤ op.clock.watermark s

def Follows (first later : Record) : Prop :=
  first.isWatermark = true → (later.isWatermark = true → first.timestamp < later.timestamp) ∧
    (later.isMarker = false → first.timestamp ≤ later.timestamp)

structure Beyond (wm : Time) (later : Record) : Prop where
  watermark : later.isWatermark = true → wm < later.timestamp
  data : later.isMarker = false → wm ≤ max Time.zero later.timestamp

theorem Behind.turn (behind : Behind op) (turn : Turn op r sends after) : Behind after := by
  cases turn with
  | watermark is left right evicted =>
    obtain ⟨-, same⟩ | ⟨-, same, nonzero, grown⟩ := op.clock.emitted_advance r
    · refine ⟨?_, fun s => ?_⟩
      · change _ ≤ (op.clock.advance r).1.emittedWatermark
        rw [same]
        exact behind.started
      · change (op.clock.advance r).1.emittedWatermark ≤ (op.clock.advance r).1.watermark s
        rw [same, (op.clock.advance_spec r).2 s]
        split
        · exact le_max_of_le_left (behind.sides s)
        · exact behind.sides s
    · refine ⟨?_, fun s => ?_⟩
      · change _ ≤ (op.clock.advance r).1.emittedWatermark
        rw [same]
        exact le_trans behind.started (le_of_lt grown)
      · change (op.clock.advance r).1.emittedWatermark ≤ (op.clock.advance r).1.watermark s
        rw [same]
        exact (aligned_le nonzero s).1
  | barrier plain is | stranger data outside => exact behind
  | data s data inside joined kept own across =>
    rw [kept]
    exact ⟨behind.started, behind.sides⟩

theorem join_default (default : op.fn = none) {left right joined : Record}
    (result : op.join left right = some joined) : joined.isMarker = false ∧
    left.timestamp ≤ joined.timestamp ∧ right.timestamp ≤ joined.timestamp := by
  rw [join, default] at result
  cases result
  exact ⟨rfl, le_max_left _ _, le_max_right _ _⟩

theorem Turn.fn (turn : Turn op r sends after) : after.fn = op.fn := by
  cases turn with
  | watermark | barrier | stranger => rfl
  | data s data inside joined kept own across => rw [kept]

theorem Turn.joined (turn : Turn op r sends after) (default : op.fn = none)
    (data : r.isMarker = false) : ∀ x ∈ sends, x.isMarker = false ∧ r.timestamp ≤ x.timestamp := by
  cases turn with
  | watermark is | barrier _ is => simp [Record.isMarker, is] at data
  | stranger => simp
  | data s data inside joined kept own across =>
    intro x mem
    obtain ⟨i, small, rfl⟩ := getElem_of_mem mem
    have result := joined.get (joined.length_eq ▸ small) small
    obtain ⟨plain, left, right⟩ := join_default default result
    cases s with
    | left => exact ⟨plain, left⟩
    | right => exact ⟨plain, right⟩

theorem Turn.sent_watermark (turn : Turn op r sends after) (default : op.fn = none) {x : Record}
    (mem : x ∈ sends) (watermark : x.isWatermark = true) :
    x.timestamp = after.clock.emittedWatermark ∧ op.clock.emittedWatermark < x.timestamp := by
  have joined := turn.joined default
  cases turn with
  | watermark is left right evicted =>
    obtain ⟨nothing, -⟩ | ⟨one, same, -, grown⟩ := op.clock.emitted_advance r
    · rw [nothing] at mem
      cases mem
    · rw [one] at mem
      obtain rfl := mem_singleton.1 mem
      exact ⟨same.symm, grown⟩
  | barrier plain is =>
    obtain rfl := mem_singleton.1 mem
    cases plain.symm.trans watermark
  | stranger => cases mem
  | data s data inside =>
    have plain := (or_eq_false_iff.1 (joined data x mem).1).2
    cases plain.symm.trans watermark

theorem Behind.beyond (behind : Behind op) (default : op.fn = none) (turn : Turn op r sends after)
    (ahead : r.isMarker = false → ∀ s, op.clock.side r = some s →
      op.clock.watermark s ≤ max Time.zero r.timestamp) :
    (∀ x ∈ sends, Beyond op.clock.emittedWatermark x) ∧ sends.Pairwise Follows ∧
      op.clock.emittedWatermark ≤ after.clock.emittedWatermark := by
  have watermarks : ∀ x ∈ sends, x.isWatermark = true → op.clock.emittedWatermark < x.timestamp :=
    fun x mem is => (turn.sent_watermark default mem is).2
  have joined := turn.joined default
  cases turn with
  | watermark is left right evicted =>
    change _ ∧ _ ∧ _ ≤ (op.clock.advance r).1.emittedWatermark
    obtain ⟨nothing, same⟩ | ⟨one, same, -, grown⟩ := op.clock.emitted_advance r
    · rw [nothing, same]
      exact ⟨by simp, .nil, le_refl _⟩
    · rw [one] at watermarks ⊢
      refine ⟨fun x mem => ⟨watermarks x mem, fun never => ?_⟩, pairwise_singleton _ _, ?_⟩
      · obtain rfl := mem_singleton.1 mem
        cases never
      · rw [same]
        exact le_of_lt grown
  | barrier plain is =>
    refine ⟨fun x mem => ⟨watermarks x mem, fun never => ?_⟩, pairwise_singleton _ _, le_refl _⟩
    obtain rfl := mem_singleton.1 mem
    simp [Record.isMarker, is] at never
  | stranger => exact ⟨by simp, .nil, le_refl _⟩
  | data s data inside _ kept own across =>
    refine ⟨fun x mem => ⟨watermarks x mem, fun _ => ?_⟩, ?_, by rw [kept]⟩
    · calc op.clock.emittedWatermark ≤ op.clock.watermark s := behind.sides s
        _ ≤ max Time.zero r.timestamp := ahead data s inside
        _ ≤ max Time.zero x.timestamp := max_le_max_left _ (joined data x mem).2
    · refine pairwise_of_forall_mem_list fun x mem _ _ never => ?_
      cases ((or_eq_false_iff.1 (joined data x mem).1).2).symm.trans never

theorem Behind.runs (behind : Behind op) (default : op.fn = none)
    (ahead : ∀ r ∈ input, r.isMarker = false → ∀ s, op.clock.side r = some s →
      op.clock.watermark s ≤ max Time.zero r.timestamp)
    (truthful : op.clock.Truthful input) (runs : Runs joins op input sent q) :
    (∀ x ∈ sent, Beyond op.clock.emittedWatermark x) ∧ sent.Pairwise Follows := by
  induction runs with
  | nil p => exact ⟨by simp, .nil⟩
  | @cons p m q r rest sends later choice reacts _ ih =>
    have turn := turn_of_process reacts
    have alike := turn.alike
    obtain ⟨first, others⟩ := pairwise_cons.1 truthful
    obtain ⟨beyond, ordered, grown⟩ := behind.beyond default turn (ahead r mem_cons_self)
    obtain ⟨further, tail⟩ := ih (behind.turn turn) (turn.fn.trans default)
      (fun q mem data s inside =>
        turn.watermark_le (ahead q (.tail _ mem) data s (alike.side ▸ inside))
        fun is covered => first q mem is data s covered (alike.side ▸ inside))
      (by rw [JoinClock.Truthful, alike.covers, alike.side]; exact others)
    refine ⟨fun x mem => ?_, pairwise_append.2 ⟨ordered, tail, fun x here y there watermark => ?_⟩⟩
    · rcases mem_append.1 mem with here | there
      · exact beyond x here
      · exact ⟨fun is => lt_of_le_of_lt grown ((further x there).watermark is),
          fun is => le_trans grown ((further x there).data is)⟩
    · obtain ⟨same, late⟩ := turn.sent_watermark default here watermark
      rw [same]
      refine ⟨(further y there).watermark, fun data => ?_⟩
      -- A watermark that was passed on is later than the zero time.
      have nonzero : Time.zero < m.clock.emittedWatermark :=
        same ▸ lt_of_le_of_lt behind.started late
      rcases le_max_iff.1 ((further y there).data data) with never | late
      · exact absurd never (not_le_of_gt nonzero)
      · exact late

theorem Behind.of_runs (behind : Behind op)
    (runs : Runs joins op input sent q) : Behind q ∧ q.fn = op.fn := by
  induction runs with
  | nil p => exact ⟨behind, rfl⟩
  | @cons p m q r rest sends later choice reacts _ ih =>
    have turn := turn_of_process reacts
    obtain ⟨last, same⟩ := ih (behind.turn turn)
    exact ⟨last, same.trans turn.fn⟩

/-- With the default join, for all bounds and every stream whose watermarks tell the truth: the
watermarks in the output are strictly increasing, each is at most the watermark of either side when
it is sent, and no joined record is older than a watermark in front of it. -/
theorem output_respects_watermarks (leftSource rightSource : String) (before after : Duration)
    (input : List Record) (truthful : JoinClock.Truthful { leftSource, rightSource } input) :
    (∃ sent q, Runs joins { clock := { leftSource, rightSource }, before, after } input sent q) ∧
    ∀ sent q, Runs joins { clock := { leftSource, rightSource }, before, after } input sent q →
      ((sent.filter fun r => r.isWatermark).Pairwise fun a b => a.timestamp < b.timestamp) ∧
      (∀ front r rest sent p sends m, input = front ++ r :: rest →
        Runs joins { clock := { leftSource, rightSource }, before, after } front sent p →
        p.process r = .send sends m → ∀ wm ∈ sends, wm.isWatermark = true →
          wm.timestamp ≤ min m.clock.leftWatermark m.clock.rightWatermark) ∧
      ∀ front wm rest, sent = front ++ wm :: rest → wm.isWatermark = true →
        ∀ joined ∈ rest, joined.isMarker = false → wm.timestamp ≤ joined.timestamp := by
  refine ⟨exists_runs (fun _ _ => rfl) input, fun sent q runs => ?_⟩
  have behind : Behind { clock := { leftSource, rightSource }, before, after } :=
    ⟨le_refl _, fun s => by cases s <;> exact le_refl _⟩
  have ordered :=
    (behind.runs rfl (fun r _ _ s _ => by cases s <;> exact le_max_left _ _) truthful runs).2
  refine ⟨?_, ?_, ?_⟩
  · refine (ordered.filter _).imp_of_mem fun {a b} mem mem' follows => ?_
    exact (follows (by simpa using (mem_filter.1 mem).2)).1 (by simpa using (mem_filter.1 mem').2)
  · rintro front r rest sent p sends m - runs reacts wm mem watermark
    obtain ⟨bound, same⟩ := behind.of_runs runs
    have turn := turn_of_process reacts
    rw [(turn.sent_watermark same mem watermark).1]
    exact le_min ((bound.turn turn).sides .left) ((bound.turn turn).sides .right)
  · rintro front wm rest rfl watermark joined mem data
    have behindIt := pairwise_cons.1 (pairwise_append.1 ordered).2.1
    exact (behindIt.1 joined mem watermark).2 data

end Watermarks

section Examples

attribute [local instance] JoinText.blank

/-- The pair of `orderThenPayment` is not older than the watermark between its records. -/
theorem payment_respects_watermark : ∃ sent q,
    Runs joins
      { clock := { leftSource := "orders", rightSource := "payments" }, before := 0, after := 5 }
      orderThenPayment sent q ∧
    (sent.filter fun r => r.isWatermark).Pairwise fun a b => a.timestamp < b.timestamp := by
  have truthful : JoinClock.Truthful { leftSource := "orders", rightSource := "payments" }
      orderThenPayment := by
    simp [JoinClock.Truthful, orderThenPayment, Record.newWatermark]
  obtain ⟨⟨sent, q, runs⟩, rule⟩ :=
    output_respects_watermarks "orders" "payments" 0 5 orderThenPayment truthful
  exact ⟨sent, q, runs, (rule sent q runs).1⟩

end Examples

end IntervalJoinOperator

end Weibo
