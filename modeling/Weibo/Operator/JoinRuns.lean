import Mathlib.Data.List.Forall2
import Mathlib.Data.List.Perm.Basic
import Mathlib.Order.MinMax
import Weibo.Lib.Complete
import Weibo.Operator.IntervalJoin

/-!
# The join of two whole streams

A run over a stream whose watermarks tell the truth emits every pair of records with equal keys and
times in range exactly once. A buffer holds every record that can still match, seen from a time that
the watermark of the other side has not passed.
-/

namespace Weibo

open List Reaction

open Chain (Runs)
open Record (isMarker newWatermark stored)

inductive Side
  | left
  | right
  deriving DecidableEq

def Side.other : Side → Side
  | .left => .right
  | .right => .left

def Side.pair (s : Side) (r across : Record) : Record × Record :=
  match s with
  | .left => (r, across)
  | .right => (across, r)

@[simp]
theorem Side.other_other (s : Side) : s.other.other = s := by cases s <;> rfl

@[simp]
theorem Side.pair_other (s : Side)
    (r across : Record) : s.other.pair across r = s.pair r across := by
  cases s <;> rfl

namespace JoinClock

def side (clock : JoinClock) (r : Record) : Option Side :=
  if r.source = clock.leftSource then some .left
  else if r.source = clock.rightSource then some .right
  else none

def watermark (clock : JoinClock) : Side → Time
  | .left => clock.leftWatermark
  | .right => clock.rightWatermark

def covers (clock : JoinClock) (wm : Record) (s : Side) : Bool :=
  match clock.side wm with
  | some tagged => decide (tagged = s)
  | none => decide (wm.source = "")

/-- No record is older than an earlier watermark of its side. -/
def Truthful (clock : JoinClock) (input : List Record) : Prop :=
  input.Pairwise fun wm r => wm.isWatermark = true → r.isMarker = false →
    ∀ s, clock.covers wm s = true → clock.side r = some s → wm.timestamp ≤ r.timestamp

def forwarded (clock : JoinClock) : List Record → List Record
  | [] => []
  | r :: rest =>
    if r.isWatermark then (clock.advance r).2 ++ forwarded (clock.advance r).1 rest
    else (if r.isBarrier then [r] else []) ++ forwarded clock rest

def records (clock : JoinClock) (s : Side) (input : List Record) : List Record :=
  input.filter fun r => !r.isMarker && decide (clock.side r = some s)

variable {clock : JoinClock}

theorem advance_spec (clock : JoinClock) (r : Record) :
    ((clock.advance r).1.leftSource = clock.leftSource ∧
      (clock.advance r).1.rightSource = clock.rightSource) ∧ ∀ s, (clock.advance r).1.watermark s =
        if clock.covers r s then max (clock.watermark s) r.timestamp else clock.watermark s := by
  have raised : ∀ after, clock.observe r = some after →
      (after.leftSource = clock.leftSource ∧ after.rightSource = clock.rightSource) ∧
      ∀ s, after.watermark s =
        if clock.covers r s then max (clock.watermark s) r.timestamp else clock.watermark s := by
    intro after observed
    simp only [observe] at observed
    split at observed
    next left =>
      have tag : clock.side r = some .left := if_pos left
      cases observed
      exact ⟨⟨rfl, rfl⟩, fun s => by cases s <;> simp [covers, tag, watermark]⟩
    next notLeft =>
      split at observed
      next right =>
        have tag : clock.side r = some .right := (if_neg notLeft).trans (if_pos right)
        cases observed
        exact ⟨⟨rfl, rfl⟩, fun s => by cases s <;> simp [covers, tag, watermark]⟩
      next notRight =>
        have tag : clock.side r = none := (if_neg notLeft).trans (if_neg notRight)
        split at observed
        next untagged =>
          cases observed
          exact ⟨⟨rfl, rfl⟩, fun s => by cases s <;> simp [covers, tag, untagged, watermark]⟩
        next => cases observed
  simp only [advance]
  cases observed : clock.observe r with
  | none =>
    refine ⟨⟨rfl, rfl⟩, fun s => ?_⟩
    have unknown : clock.covers r s = false := by
      simp only [observe] at observed
      split at observed
      · cases observed
      · split at observed
        · cases observed
        · split at observed
          · cases observed
          · simp [covers, side, *]
    simp [unknown]
  | some after =>
    have spec := raised after observed
    dsimp only
    split
    · exact spec
    · split
      · exact spec
      · exact spec

theorem side_advance (clock : JoinClock) (r : Record) : (clock.advance r).1.side = clock.side := by
  obtain ⟨⟨left, right⟩, -⟩ := clock.advance_spec r
  funext q
  rw [side, side, left, right]

theorem records_congr {other : JoinClock} (same : other.side = clock.side) (s : Side)
    (input : List Record) : other.records s input = clock.records s input := by
  rw [records, records, same]

@[simp]
theorem records_append (clock : JoinClock) (s : Side) (first second : List Record) :
    clock.records s (first ++ second) = clock.records s first ++ clock.records s second :=
  filter_append ..

end JoinClock

namespace IntervalJoinOperator

def held (op : IntervalJoinOperator) : Side → ListState Bytes Record
  | .left => op.left
  | .right => op.right

def margin (op : IntervalJoinOperator) : Side → Duration
  | .left => op.after
  | .right => op.before

def near (op : IntervalJoinOperator) (p : Record × Record) : Bool :=
  op.inRange p.1.timestamp p.2.timestamp

def isMatch (op : IntervalJoinOperator) (p : Record × Record) : Bool :=
  decide (p.1.key = p.2.key) && op.near p

def fullJoin (op : IntervalJoinOperator) (input : List Record) : List (Record × Record) :=
  ((op.clock.records .left input) ×ˢ (op.clock.records .right input)).filter op.isMatch

section Runs

variable [JoinText]

def joins : Chain.Processor IntervalJoinOperator Record where
  react op _ r := op.process r
  flush op _ := .send [] op
  expires _ := false

def Joined (op : IntervalJoinOperator) (p : Record × Record) (joined : Record) : Prop :=
  op.join p.1.stored p.2 = some joined ∨ op.join p.1 p.2.stored = some joined

/-- What the join of a stream is: nothing is missing, nothing comes twice and nothing is
evicted too early. -/
structure JoinsFully (op : IntervalJoinOperator) (input : List Record) : Prop where
  returns : ∃ sent q, Runs joins op input sent q
  emits : ∀ sent q, Runs joins op input sent q → ∃ pairs outputs,
    pairs.Perm (op.fullJoin input) ∧ Forall₂ op.Joined pairs outputs ∧
      sent.Perm (outputs ++ op.clock.forwarded input)
  keeps : ∀ front rest sent p, input = front ++ rest → Runs joins op front sent p →
    ∀ r ∈ rest, r.isMarker = false → ∀ s, op.clock.side r = some s →
      ((p.held s.other).getAll r.key).filter (fun across => op.near (s.pair r across)) =
        ((op.clock.records s.other front).filter fun across => op.isMatch (s.pair r across)).map
          stored

variable {op after : IntervalJoinOperator} {input sent : List Record}

/-! ## What a round does -/

variable {sends : List Record}

theorem of_emitMatches {pair : Record → Record × Record} {others : List Record}
    (emits : emitMatches pair others op = .send sends after) : after = op ∧
      Forall₂ (fun across joined => op.join (pair across).1 (pair across).2 = some joined)
        (others.filter fun across => op.near (pair across)) sends := by
  induction others generalizing sends with
  | nil =>
    obtain ⟨rfl, ⟨⟩⟩ := Reaction.mk.inj emits
    exact ⟨rfl, .nil⟩
  | cons across rest ih =>
    obtain ⟨first, middle, later, here, there, rfl⟩ := of_andThen_eq_send emits
    change (if op.near (pair across) = true then _ else _) = _ at here
    cases inside : op.near (pair across) with
    | false =>
      rw [inside, if_neg Bool.false_ne_true] at here
      obtain ⟨rfl, ⟨⟩⟩ := Reaction.mk.inj here
      simpa [inside] using ih there
    | true =>
      rw [inside, if_pos rfl] at here
      cases result : op.join (pair across).1 (pair across).2 with rw [result] at here
      | none =>
        cases here
      | some joined =>
        obtain ⟨rfl, ⟨⟩⟩ := Reaction.mk.inj here
        obtain ⟨same, rest⟩ := ih there
        refine ⟨same, ?_⟩
        rw [filter_cons_of_pos (by simpa using inside)]
        exact .cons result rest

inductive Turn (op : IntervalJoinOperator) (r : Record) : List Record → IntervalJoinOperator → Prop
  | watermark (is : r.isWatermark = true) (left right : ListState Bytes Record)
      (evicted : (left = op.left ∧ right = op.right) ∨
        ((op.clock.advance r).1.aligned.isZero = false ∧
          left = evict op.left ((op.clock.advance r).1.aligned - op.after) ∧
          right = evict op.right ((op.clock.advance r).1.aligned - op.before))) :
      Turn op r (op.clock.advance r).2 { op with left, right, clock := (op.clock.advance r).1 }
  | barrier (plain : r.isWatermark = false) (is : r.isBarrier = true) : Turn op r [r] op
  | stranger (data : r.isMarker = false) (outside : op.clock.side r = none) : Turn op r [] op
  | data {sends : List Record} {after : IntervalJoinOperator} (s : Side) (data : r.isMarker = false)
      (inside : op.clock.side r = some s)
      (joined : Forall₂
        (fun across joined => op.join (s.pair r across).1 (s.pair r across).2 = some joined)
        (((op.held s.other).getAll r.key).filter fun across => op.near (s.pair r across)) sends)
      (kept : after = { op with left := after.left, right := after.right })
      (own : after.held s = (op.held s).append r.key r.stored)
      (across : after.held s.other = op.held s.other) : Turn op r sends after

variable {r : Record}

theorem turn_of_handleRecord (data : r.isMarker = false)
    (handles : op.handleRecord r = .send sends after) : Turn op r sends after := by
  simp only [handleRecord] at handles
  split at handles
  next left =>
    obtain ⟨first, middle, later, here, there, rfl⟩ := of_andThen_eq_send handles
    obtain ⟨rfl, joined⟩ := of_emitMatches here
    obtain ⟨rfl, ⟨⟩⟩ := Reaction.mk.inj there
    rw [append_nil]
    exact .data .left data (by simp [JoinClock.side, left]) joined rfl rfl rfl
  next notLeft =>
    split at handles
    next right =>
      obtain ⟨first, middle, later, here, there, rfl⟩ := of_andThen_eq_send handles
      obtain ⟨rfl, joined⟩ := of_emitMatches here
      obtain ⟨rfl, ⟨⟩⟩ := Reaction.mk.inj there
      rw [append_nil]
      exact .data .right data (by simp [JoinClock.side, right, right ▸ notLeft]) joined rfl rfl rfl
    next notRight =>
      obtain ⟨rfl, ⟨⟩⟩ := Reaction.mk.inj handles
      exact .stranger data (by simp [JoinClock.side, notLeft, notRight])

theorem turn_of_process (reacts : op.process r = .send sends after) : Turn op r sends after := by
  simp only [process] at reacts
  split at reacts
  next watermark =>
    have handled : op.handleWatermark r = .send (op.clock.advance r).2
        { (if (op.clock.observe r).isNone = true ∨
          (op.clock.advance r).1.aligned.isZero = true then op
          else op.evictSides (op.clock.advance r).1.aligned) with
          clock := (op.clock.advance r).1 } := rfl
    rw [handled] at reacts
    obtain ⟨rfl, ⟨⟩⟩ := Reaction.mk.inj reacts
    by_cases idle :
      (op.clock.observe r).isNone = true ∨ (op.clock.advance r).1.aligned.isZero = true
    · rw [if_pos idle]
      exact .watermark watermark op.left op.right (.inl ⟨rfl, rfl⟩)
    · have nonzero : (op.clock.advance r).1.aligned.isZero = false := by
        simpa using (not_or.1 idle).2
      rw [if_neg idle]
      exact .watermark watermark _ _ (.inr ⟨nonzero, rfl, rfl⟩)
  next plain =>
    split at reacts
    next barrier =>
      obtain ⟨rfl, ⟨⟩⟩ := Reaction.mk.inj reacts
      exact .barrier (by simpa using plain) barrier
    next data => exact turn_of_handleRecord (by simp [isMarker, plain, data]) reacts

/-! ## What the buffers hold -/

omit [JoinText] in
theorem getAll_evict (state : ListState Bytes Record) (cutoff : Time)
    (key : Bytes) : (evict state cutoff).getAll key = (state.getAll key).filter fun r => decide
    (cutoff ≤ r.timestamp) := by
  suffices general : ∀ (keys : List Bytes) (state : ListState Bytes Record), keys.Nodup →
      (keys.foldl (fun state key =>
        (state.clear key).appendAll key ((state.getAll key).filter fun r =>
          decide (cutoff ≤ r.timestamp))) state).getAll key =
        if key ∈ keys then (state.getAll key).filter fun r => decide (cutoff ≤ r.timestamp)
        else state.getAll key by
    rw [evict, general state.keys state state.keys_nodup]
    by_cases inside : key ∈ state.keys
    · rw [if_pos inside]
    · rw [if_neg inside, ListState.getAll_of_not_mem inside, filter_nil]
  intro keys
  induction keys with
  | nil => simp
  | cons first rest ih =>
    intro state distinct
    obtain ⟨absent, distinct⟩ := nodup_cons.1 distinct
    rw [foldl_cons, ih _ distinct, ListState.getAll_appendAll, ListState.getAll_clear,
      ListState.getAll_clear]
    by_cases same : key = first
    · subst same
      simp [absent]
    · simp [same]

/-- The buffers hold every record that can still match: seen from a time that the watermark of
the other side has not passed, nothing is missing. -/
structure Remembers (op : IntervalJoinOperator) (front : List Record) : Prop where
  started : ∀ s, Time.zero ≤ op.clock.watermark s
  buffers : ∀ s (r : Record), op.clock.watermark s.other ≤ max Time.zero r.timestamp →
    ((op.held s).getAll r.key).filter (fun own => op.near (s.pair own r)) =
      ((op.clock.records s front).filter fun own => op.isMatch (s.pair own r)).map stored

variable {s : Side}

omit [JoinText] in
theorem near_of_evicted {op : IntervalJoinOperator} {own : Record} {aligned : Time}
    (coming : aligned ≤ r.timestamp) (near : op.near (s.pair own r) = true) :
    aligned - op.margin s ≤ own.timestamp := by
  cases s with
  | left =>
    have range :
      own.timestamp - op.before ≤ r.timestamp ∧ r.timestamp ≤ own.timestamp + op.after := by
      exact of_decide_eq_true near
    exact Int.sub_right_le_of_le_add (Int.le_trans coming range.2)
  | right =>
    have range :
      r.timestamp - op.before ≤ own.timestamp ∧ own.timestamp ≤ r.timestamp + op.after := by
      exact of_decide_eq_true near
    exact Int.le_trans (Int.sub_le_sub_right coming _) range.1

omit [JoinText] in
theorem aligned_le {clock : JoinClock} (nonzero : clock.aligned.isZero = false) (s : Side) :
    clock.aligned ≤ clock.watermark s ∧ clock.watermark s ≠ Time.zero := by
  simp only [JoinClock.aligned, alignedWatermark] at nonzero ⊢
  split at nonzero
  · simp [Time.isZero] at nonzero
  next both =>
    rw [if_neg both]
    simp only [Time.isZero, Bool.or_eq_true, decide_eq_true_eq, not_or] at both
    cases s with
    | left => exact ⟨min_le_left _ _, both.1⟩
    | right => exact ⟨min_le_right _ _, both.2⟩

variable {front : List Record}

omit [JoinText] in
theorem Remembers.watermark {left right : ListState Bytes Record}
    (remembers : Remembers op front) (is : r.isWatermark = true)
    (evicted : (left = op.left ∧ right = op.right) ∨
      ((op.clock.advance r).1.aligned.isZero = false ∧
        left = evict op.left ((op.clock.advance r).1.aligned - op.after) ∧
        right = evict op.right ((op.clock.advance r).1.aligned - op.before))) :
    Remembers { op with left, right, clock := (op.clock.advance r).1 } (front ++ [r]) := by
  obtain ⟨-, raised⟩ := op.clock.advance_spec r
  have grows : ∀ s, op.clock.watermark s ≤ (op.clock.advance r).1.watermark s := by
    intro s
    rw [raised]
    split
    · exact le_max_left _ _
    · exact Int.le_refl _
  refine ⟨fun s => Int.le_trans (remembers.started s) (grows s), fun s q coming => ?_⟩
  have before := remembers.buffers s q (Int.le_trans (grows s.other) coming)
  have same : (op.clock.advance r).1.records s (front ++ [r]) = op.clock.records s front := by
    rw [JoinClock.records_congr (op.clock.side_advance r), JoinClock.records_append]
    simp [JoinClock.records, isMarker, is]
  change _ = (((op.clock.advance r).1.records s (front ++ [r])).filter _).map stored
  rw [same]
  refine Eq.trans ?_ before
  rcases evicted with ⟨rfl, rfl⟩ | ⟨nonzero, rfl, rfl⟩
  · cases s <;> rfl
  · obtain ⟨bound, moved⟩ := aligned_le nonzero s.other
    have reached : (op.clock.advance r).1.aligned ≤ q.timestamp := by
      have later : Time.zero ≤ (op.clock.advance r).1.watermark s.other :=
        Int.le_trans (remembers.started s.other) (grows s.other)
      rcases le_max_iff.1 coming with early | late
      · exact absurd (Int.le_antisymm early later) moved
      · exact Int.le_trans bound late
    have filtered : ∀ held : List Record, (held.filter fun own => decide
        ((op.clock.advance r).1.aligned - op.margin s ≤ own.timestamp)).filter
          (fun own => op.near (s.pair own q)) = held.filter fun own => op.near (s.pair own q) := by
      intro held
      rw [filter_filter]
      refine filter_congr fun own _ => ?_
      cases near : op.near (s.pair own q) with
      | false => rfl
      | true => simpa using near_of_evicted reached near
    cases s with
    | left | right => exact (congrArg (filter _) (getAll_evict _ _ _)).trans (filtered _)

theorem Remembers.turn (remembers : Remembers op front)
    (fits : r.isMarker = false → r.timestamp.unixNano = r.timestamp)
    (turn : Turn op r sends after) : Remembers after (front ++ [r]) := by
  cases turn with
  | watermark is left right evicted => exact remembers.watermark is evicted
  | barrier plain is =>
    refine ⟨remembers.started, fun s q coming => ?_⟩
    have same : op.clock.records s (front ++ [r]) = op.clock.records s front := by
      simp [JoinClock.records, isMarker, is]
    rw [same]
    exact remembers.buffers s q coming
  | stranger data outside =>
    refine ⟨remembers.started, fun s q coming => ?_⟩
    have same : op.clock.records s (front ++ [r]) = op.clock.records s front := by
      simp [JoinClock.records, outside]
    rw [same]
    exact remembers.buffers s q coming
  | data s data inside joined kept own across =>
    have clock : after.clock = op.clock := by rw [kept]
    have near : ∀ p, after.near p = op.near p := fun p => by rw [kept]; rfl
    refine ⟨clock ▸ remembers.started, fun t q coming => ?_⟩
    have before := remembers.buffers t q (clock ▸ coming)
    have matched : ∀ p, after.isMatch p = op.isMatch p := fun p => by rw [isMatch, isMatch, near]
    simp only [near, matched, clock]
    rw [JoinClock.records_append, filter_append, map_append, ← before]
    by_cases same : t = s
    · subst same
      have here : op.clock.records t [r] = [r] := by simp [JoinClock.records, data, inside]
      have time : r.stored.timestamp = r.timestamp := fits data
      have alike : op.near (t.pair r.stored q) = op.near (t.pair r q) := by
        cases t <;> simp [IntervalJoinOperator.near, Side.pair, time]
      have keys : op.isMatch (t.pair r q) = (decide (q.key = r.key) && op.near (t.pair r q)) := by
        cases t with
        | left => simp only [isMatch, Side.pair, eq_comm (a := r.key)]
        | right => rfl
      rw [own, here, ListState.getAll_append]
      by_cases key : q.key = r.key
      · rw [if_pos key, filter_append, key, filter_singleton, filter_singleton, alike, keys]
        simp only [key, decide_true, Bool.true_and]
        cases op.near (t.pair r q) <;> rfl
      · simp [keys, key]
    · have across' : t = s.other := by
        cases t <;> cases s <;> first | rfl | exact absurd rfl same
      have here : op.clock.records t [r] = [] := by
        simp [JoinClock.records, inside, Ne.symm same]
      rw [across', across, ← across', here]
      simp

/-! ## Whole runs -/

structure Alike (op after : IntervalJoinOperator) : Prop where
  near : after.near = op.near
  join : after.join = op.join
  side : after.clock.side = op.clock.side

theorem Alike.isMatch (alike : Alike op after) : after.isMatch = op.isMatch := by
  funext pair
  rw [IntervalJoinOperator.isMatch, IntervalJoinOperator.isMatch, alike.near]

theorem Alike.covers (alike : Alike op after) : after.clock.covers = op.clock.covers := by
  funext wm s
  rw [JoinClock.covers, JoinClock.covers, alike.side]

theorem Alike.fullJoin (alike : Alike op after) : after.fullJoin = op.fullJoin := by
  funext input
  rw [IntervalJoinOperator.fullJoin, IntervalJoinOperator.fullJoin, alike.isMatch,
    JoinClock.records_congr alike.side, JoinClock.records_congr alike.side]

theorem Turn.alike (turn : Turn op r sends after) : Alike op after := by
  cases turn with
  | watermark is left right evicted =>
    obtain ⟨⟨first, second⟩, -⟩ := op.clock.advance_spec r
    refine ⟨rfl, ?_, op.clock.side_advance r⟩
    funext l r
    simp only [join, first, second]
  | barrier plain is | stranger data outside => exact ⟨rfl, rfl, rfl⟩
  | data s data inside joined kept own across =>
    rw [kept]
    exact ⟨rfl, rfl, rfl⟩

theorem Turn.watermark_le {q : Record} (turn : Turn op r sends after)
    (ahead : op.clock.watermark s ≤ max Time.zero q.timestamp)
    (truthful : r.isWatermark = true → op.clock.covers r s = true → r.timestamp ≤ q.timestamp) :
    after.clock.watermark s ≤ max Time.zero q.timestamp := by
  cases turn with
  | watermark is left right evicted =>
    change (op.clock.advance r).1.watermark s ≤ _
    rw [(op.clock.advance_spec r).2 s]
    split
    next covers => exact max_le ahead (le_max_of_le_right (truthful is covers))
    next => exact ahead
  | barrier plain is | stranger data outside => exact ahead
  | data t data inside joined kept own across =>
    rw [kept]
    exact ahead

omit [JoinText] in
theorem fullJoin_append (data : r.isMarker = false) (inside : op.clock.side r = some s) :
    (op.fullJoin front ++ ((op.clock.records s.other front).filter fun across =>
      op.isMatch (s.pair r across)).map (s.pair r)).Perm (op.fullJoin (front ++ [r])) := by
  have here : op.clock.records s [r] = [r] := by simp [JoinClock.records, data, inside]
  have there : op.clock.records s.other [r] = [] := by
    cases s <;> simp [JoinClock.records, inside, Side.other]
  have grown :
    (op.clock.records .left (front ++ [r]) ×ˢ op.clock.records .right (front ++ [r])).Perm
      (op.clock.records .left front ×ˢ op.clock.records .right front ++
        (op.clock.records s.other front).map (s.pair r)) := by
    rw [JoinClock.records_append, JoinClock.records_append]
    cases s with
    | left =>
      rw [here, show op.clock.records .right [r] = [] from there, append_nil]
      refine Perm.of_eq (flatMap_append.trans ?_)
      rw [flatMap_singleton]
      rfl
    | right =>
      rw [here, show op.clock.records .left [r] = [] from there, append_nil]
      have split := flatMap_append_perm (op.clock.records .left front)
        (fun l => (op.clock.records .right front).map (Prod.mk l)) (fun l => [(l, r)])
      rw [← map_eq_flatMap] at split
      refine Perm.trans (Perm.of_eq ?_) split.symm
      exact flatMap_congr fun l _ => map_append
  have filtered := grown.filter op.isMatch
  rw [filter_append, filter_map] at filtered
  exact filtered.symm

theorem Remembers.joined (remembers : Remembers op front)
    (ahead : r.isMarker = false → ∀ s, op.clock.side r = some s →
      op.clock.watermark s ≤ max Time.zero r.timestamp) (turn : Turn op r sends after) :
    ∃ pairs outputs, (op.fullJoin front ++ pairs).Perm (op.fullJoin (front ++ [r])) ∧
      Forall₂ op.Joined pairs outputs ∧
      ∀ rest, sends ++ after.clock.forwarded rest = outputs ++ op.clock.forwarded (r :: rest) := by
  have idle : (∀ s, op.clock.records s [r] = []) →
      (op.fullJoin front ++ []).Perm (op.fullJoin (front ++ [r])) := by
    intro nothing
    simp [fullJoin, nothing]
  cases turn with
  | watermark is left right evicted =>
    refine ⟨[], [], idle fun s => ?_, .nil, fun rest => ?_⟩
    · simp [JoinClock.records, isMarker, is]
    · rw [nil_append, JoinClock.forwarded, if_pos is]
  | barrier plain is =>
    refine ⟨[], [], idle fun s => ?_, .nil, fun rest => ?_⟩
    · simp [JoinClock.records, isMarker, is]
    · simp [JoinClock.forwarded, plain, is]
  | stranger data outside =>
    refine ⟨[], [], idle fun s => ?_, .nil, fun rest => ?_⟩
    · simp [JoinClock.records, outside]
    · simp only [isMarker, Bool.or_eq_false_iff] at data
      simp [JoinClock.forwarded, data.1, data.2]
  | data s data inside joined kept own across =>
    have reach : op.clock.watermark s.other.other ≤ max Time.zero r.timestamp := by
      rw [Side.other_other]
      exact ahead data s inside
    have buffer := remembers.buffers s.other r reach
    simp only [Side.pair_other] at buffer
    rw [buffer, forall₂_map_left_iff] at joined
    refine ⟨_, sends, fullJoin_append data inside, ?_, fun rest => ?_⟩
    · rw [forall₂_map_left_iff]
      refine joined.imp fun across output result => ?_
      cases s with
      | left => exact .inr result
      | right => exact .inl result
    · simp only [isMarker, Bool.or_eq_false_iff] at data
      rw [kept]
      simp [JoinClock.forwarded, data.1, data.2]

variable {q : IntervalJoinOperator}

theorem Remembers.runs {rest : List Record} (remembers : Remembers op front)
    (ahead : ∀ r ∈ rest, r.isMarker = false → ∀ s, op.clock.side r = some s →
      op.clock.watermark s ≤ max Time.zero r.timestamp) (truthful : op.clock.Truthful rest)
    (fits : ∀ r ∈ rest, r.isMarker = false → r.timestamp.unixNano = r.timestamp)
    (runs : Runs joins op rest sent q) :
    ∃ pairs outputs, (op.fullJoin front ++ pairs).Perm (op.fullJoin (front ++ rest)) ∧
      Forall₂ op.Joined pairs outputs ∧ sent.Perm (outputs ++ op.clock.forwarded rest) := by
  induction runs generalizing front with
  | nil p => exact ⟨[], [], by simp, .nil, by simp [JoinClock.forwarded]⟩
  | @cons p m q r rest sends later choice reacts _ ih =>
    have turn := turn_of_process reacts
    have alike := turn.alike
    obtain ⟨first, others⟩ := pairwise_cons.1 truthful
    obtain ⟨pairs, outputs, listed, joins, sent⟩ :=
      remembers.joined (ahead r mem_cons_self) turn
    obtain ⟨pairs', outputs', listed', joins', sent'⟩ := ih
      (remembers.turn (fits r mem_cons_self) turn)
      (fun q mem data s inside => turn.watermark_le
        (ahead q (.tail _ mem) data s (alike.side ▸ inside))
        fun is covered => first q mem is data s covered (alike.side ▸ inside))
      (by rw [JoinClock.Truthful, alike.covers, alike.side]; exact others)
      fun q mem => fits q (.tail _ mem)
    refine ⟨pairs ++ pairs', outputs ++ outputs', ?_, ?_, ?_⟩
    · rw [alike.fullJoin, append_assoc, singleton_append] at listed'
      rw [← append_assoc]
      exact (listed.append_right pairs').trans listed'
    · refine List.rel_append joins (joins'.imp fun pair output result => ?_)
      rwa [Joined, alike.join] at result
    · have moved : (sends ++ (outputs' ++ m.clock.forwarded rest)).Perm
          (outputs' ++ (sends ++ m.clock.forwarded rest)) := by
        rw [← append_assoc, ← append_assoc]
        exact perm_append_comm.append_right _
      refine (sent'.append_left sends).trans (moved.trans ?_)
      rw [sent rest, ← append_assoc]
      exact perm_append_comm.append_right _

theorem Remembers.of_runs {rest : List Record} (remembers : Remembers op front)
    (fits : ∀ r ∈ rest, r.isMarker = false → r.timestamp.unixNano = r.timestamp)
    (runs : Runs joins op rest sent q) : Remembers q (front ++ rest) ∧ Alike op q := by
  induction runs generalizing front with
  | nil p => exact ⟨by simpa using remembers, ⟨rfl, rfl, rfl⟩⟩
  | @cons p m q r rest sends later choice reacts _ ih =>
    have turn := turn_of_process reacts
    have alike := turn.alike
    obtain ⟨kept, last⟩ := ih (remembers.turn (fits r mem_cons_self) turn) fun q mem =>
      fits q (.tail _ mem)
    rw [append_assoc, singleton_append] at kept
    exact ⟨kept, last.near.trans alike.near, last.join.trans alike.join, last.side.trans alike.side⟩

theorem ahead_of_runs (initial : op.clock.watermark s ≤ max Time.zero r.timestamp)
    (truthful : ∀ wm ∈ front, wm.isWatermark = true → op.clock.covers wm s = true →
      wm.timestamp ≤ r.timestamp) (runs : Runs joins op front sent q) :
    q.clock.watermark s ≤ max Time.zero r.timestamp := by
  induction runs with
  | nil p => exact initial
  | @cons p m q first rest sends later choice reacts _ ih =>
    have turn := turn_of_process reacts
    refine ih (turn.watermark_le initial (truthful first mem_cons_self)) fun wm mem is covered => ?_
    exact truthful wm (.tail _ mem) is (turn.alike.covers ▸ covered)

theorem exists_runs (total : ∀ left right, (op.join left right).isSome = true)
    (input : List Record) : ∃ sent q, Runs joins op input sent q := by
  have emits :
    ∀ (op : IntervalJoinOperator) (pair : Record → Record × Record) (others : List Record),
      (∀ left right, (op.join left right).isSome = true) →
      ∃ sends, emitMatches pair others op = .send sends op := by
    intro op pair others total
    refine ⟨_, eq_send ?_⟩
    have meets : (emitMatches pair others op).Meets (fun _ => True) (· = op) := by
      refine meets_forEach rfl fun across _ current same => ?_
      subst same
      split
      · obtain ⟨joined, result⟩ := Option.isSome_iff_exists.1
          (total (pair across).1 (pair across).2)
        rw [result]
        exact meets_send (by simp) rfl
      · exact meets_send (by simp) rfl
    obtain ⟨-, after, next, rfl⟩ := meets
    exact next
  induction input generalizing op with
  | nil => exact ⟨[], op, .nil op⟩
  | cons r rest ih =>
    have reacts : ∃ sends after, op.process r = .send sends after := by
      simp only [process, handleRecord]
      split
      · exact ⟨_, _, rfl⟩
      · split
        · exact ⟨_, _, rfl⟩
        · split
          · obtain ⟨sends, first⟩ :=
              emits op (fun other => (r, other)) (op.right.getAll r.key) total
            rw [first]
            exact ⟨_, _, rfl⟩
          · split
            · obtain ⟨sends, first⟩ :=
                emits op (fun other => (other, r)) (op.left.getAll r.key) total
              rw [first]
              exact ⟨_, _, rfl⟩
            · exact ⟨_, _, rfl⟩
    obtain ⟨sends, after, reacts⟩ := reacts
    have still : ∀ left right, (after.join left right).isSome = true := by
      rw [(turn_of_process reacts).alike.join]
      exact total
    obtain ⟨sent, q, runs⟩ := ih still
    exact ⟨_, q, .cons 0 reacts runs⟩

/-- For all bounds, all sources and join functions that do not panic, and every stream whose
watermarks tell the truth and whose times fit 64 bits: the operator computes the full join. -/
theorem joins_fully (leftSource rightSource : String) (before after : Duration)
    (fn : Option (Record → Record → Record)) (input : List Record)
    (truthful : JoinClock.Truthful { leftSource, rightSource } input)
    (fits : ∀ r ∈ input, r.isMarker = false → r.timestamp.unixNano = r.timestamp) :
    JoinsFully
      { clock := { leftSource, rightSource }
        before
        after
        fn := fn.map fun f left right => some (f left right) } input := by
  have total : ∀ left right, (IntervalJoinOperator.join
      { clock := { leftSource, rightSource }
        before
        after
        fn := fn.map fun f left right => some (f left right) } left right).isSome = true := by
    intro left right
    cases fn <;> rfl
  generalize start : ({ clock := { leftSource, rightSource }, before, after, fn := _ } :
    IntervalJoinOperator) = op at total ⊢
  have clock : op.clock = { leftSource, rightSource } := by rw [← start]
  have empty : ∀ s, op.held s = ∅ := by
    intro s
    rw [← start]
    cases s <;> rfl
  have zero : ∀ s, op.clock.watermark s = Time.zero := by
    intro s
    rw [clock]
    cases s <;> rfl
  rw [← clock] at truthful
  have remembers : Remembers op [] :=
    ⟨fun s => by rw [zero s], fun s r _ => by simp [empty s, ListState.getAll, JoinClock.records]⟩
  have ahead : ∀ s (r : Record), op.clock.watermark s ≤ max Time.zero r.timestamp := by
    intro s r
    rw [zero s]
    exact le_max_left _ _
  refine ⟨exists_runs total input, fun sent q runs => ?_, ?_⟩
  · obtain ⟨pairs, outputs, listed, joined, sent⟩ :=
      remembers.runs (fun r _ _ s _ => ahead s r) truthful fits runs
    have nothing : op.fullJoin [] = [] := rfl
    rw [nothing, nil_append, nil_append] at listed
    exact ⟨pairs, outputs, listed, joined, sent⟩
  · rintro front rest sent p rfl runs r mem data s inside
    obtain ⟨kept, alike⟩ := remembers.of_runs (fun q mem => fits q (mem_append_left _ mem)) runs
    have reach : p.clock.watermark s.other.other ≤ max Time.zero r.timestamp := by
      rw [Side.other_other]
      refine ahead_of_runs (ahead s r) (fun wm inFront is covered => ?_) runs
      exact (pairwise_append.1 truthful).2.2 wm inFront r mem is data s covered inside
    have buffer := kept.buffers s.other r reach
    simpa only [Side.pair_other, alike.near, alike.isMatch, nil_append,
      JoinClock.records_congr alike.side] using buffer

end Runs

section Examples

attribute [local instance] JoinText.blank

def orderThenPayment : List Record :=
  [{ source := "orders", timestamp := 0 }, newWatermark 3,
    { source := "payments", timestamp := 5 }]

/-- The watermark passes the left record, which the right one still finds. -/
theorem joins_fully_behind_watermark :
    JoinsFully
      { clock := { leftSource := "orders", rightSource := "payments" }, before := 0, after := 5 }
      orderThenPayment ∧
    (IntervalJoinOperator.fullJoin
      { clock := { leftSource := "orders", rightSource := "payments" }, before := 0, after := 5 }
      orderThenPayment).length = 1 := by
  have truthful : JoinClock.Truthful { leftSource := "orders", rightSource := "payments" }
      orderThenPayment := by
    simp [JoinClock.Truthful, orderThenPayment, newWatermark]
  exact ⟨joins_fully "orders" "payments" 0 5 none orderThenPayment truthful (by decide), by decide⟩

end Examples

end IntervalJoinOperator

end Weibo
