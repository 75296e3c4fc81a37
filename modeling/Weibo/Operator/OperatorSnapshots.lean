import Weibo.Operator.Stateful
import Weibo.State.Json

/-!
# Snapshots of the stateful operators

At a barrier an operator without a native backend serializes its state to JSON, and `Restore` loads
it into a fresh operator. The keys go through `Utf8.coerce`, watermarks are stored as Unix
nanoseconds, and the frontier of a reduce operator is not stored.
-/

namespace Weibo

open List Option AList Bool

open Reaction (along_trivial next_forEach rel_fail rel_forEach rel_send)
open ListState (ofEntries ofEntries_eq)

def unixNanoOrZero (t : Time) : Int := if t.isZero then 0 else t.unixNano

def timeFromUnixNanoOrZero (n : Int) : Time := if n = 0 then Time.zero else n

def Time.dawn : Time := Time.zero.unixNano

def throughJSON {ν : Type} (state : ValueState Bytes ν) : ValueState Bytes ν :=
  throughObject id Utf8.coerce takeLast state

/-! ## The four snapshots -/

/-- `reduceStateJSON`. -/
structure ReduceSnapshot where
  entries : ValueState Bytes Bytes

namespace ReduceOperator

def snapshot (op : ReduceOperator) : ReduceSnapshot := ⟨op.values⟩

def restore (op : ReduceOperator) (snapshot : ReduceSnapshot) : ReduceOperator :=
  { op with values := snapshot.entries }

end ReduceOperator

def WindowKey.text [TimeText] (wk : WindowKey) : Bytes :=
  wk.key ++ slash :: TimeText.format wk.start ++ slash :: TimeText.format wk.stop

def WindowKey.coerced (wk : WindowKey) : WindowKey := { wk with key := Utf8.coerce wk.key }

theorem WindowKey.coerced_of_valid {wk : WindowKey}
    (valid : Utf8.Valid wk.key) : wk.coerced = wk := by
  rw [WindowKey.coerced, Utf8.coerce_of_valid valid]

/-- `windowOperatorSnapshotJSON`. -/
structure WindowSnapshot where
  currentWatermark : Int
  windows : ListState WindowKey Record

namespace WindowOperator

def snapshot (op : WindowOperator) : WindowSnapshot := ⟨op.currentWatermark.unixNano, op.recState⟩

def restore (op : WindowOperator) (snapshot : WindowSnapshot) : WindowOperator :=
  { op with
    currentWatermark := snapshot.currentWatermark
    recState := .ofEntries snapshot.windows.entries }

end WindowOperator

structure JoinSnapshot where
  leftWatermark : Int
  rightWatermark : Int
  left : ListState Bytes Record
  right : ListState Bytes Record

namespace IntervalJoinOperator

def snapshot (op : IntervalJoinOperator) : JoinSnapshot where
  leftWatermark := unixNanoOrZero op.clock.leftWatermark
  rightWatermark := unixNanoOrZero op.clock.rightWatermark
  left := op.left
  right := op.right

def restore (op : IntervalJoinOperator) (snapshot : JoinSnapshot) : IntervalJoinOperator :=
  let leftWatermark := timeFromUnixNanoOrZero snapshot.leftWatermark
  let rightWatermark := timeFromUnixNanoOrZero snapshot.rightWatermark
  { op with
    clock := { op.clock with
      leftWatermark
      rightWatermark
      emittedWatermark := alignedWatermark leftWatermark rightWatermark }
    left := .ofEntries snapshot.left.entries
    right := .ofEntries snapshot.right.entries }

end IntervalJoinOperator

structure KeyedProcessSnapshot where
  namespaces : ValueState Bytes KeyedValues
  timers : ListState Bytes Int
  watermark : Int

namespace KeyedProcessOperator

def held (op : KeyedProcessOperator) : ValueState Bytes KeyedValues :=
  (op.state.entries.filter fun entry => !entry.2.entries.isEmpty).toAList

def named (op : KeyedProcessOperator) (key : Bytes) : KeyedValues := (op.state.lookup key).getD ∅

def snapshot (op : KeyedProcessOperator) : KeyedProcessSnapshot :=
  ⟨op.held, op.timers, unixNanoOrZero op.watermark⟩

/-- `Restore`. The watermark is written to the backend as Unix nanoseconds, also when it is the
zero time, and `Process` starts with what it finds there. -/
def restore (op : KeyedProcessOperator) (snapshot : KeyedProcessSnapshot) : KeyedProcessOperator :=
  { op with
    state := snapshot.namespaces
    timers := snapshot.timers
    watermark := (timeFromUnixNanoOrZero snapshot.watermark).unixNano }

end KeyedProcessOperator

inductive OperatorSnapshot
  | window (snapshot : WindowSnapshot)
  | reduce (snapshot : ReduceSnapshot)
  | keyedProcess (snapshot : KeyedProcessSnapshot)
  | intervalJoin (snapshot : JoinSnapshot)

/-- What `json.Unmarshal` reads of the bytes that `json.Marshal` writes. In the snapshot of a keyed
process operator every namespace is an object of its own. -/
def OperatorSnapshot.readBack [TimeText] : OperatorSnapshot → OperatorSnapshot
  | .window s => .window
      { s with windows := throughObject WindowKey.text WindowKey.coerced takeLast s.windows }
  | .reduce s => .reduce ⟨throughJSON s.entries⟩
  | .keyedProcess s => .keyedProcess
      { s with
        namespaces :=
          throughObject id Utf8.coerce (fun later earlier => later ∪ earlier) s.namespaces
        timers := throughJSON s.timers }
  | .intervalJoin s =>
    .intervalJoin { s with left := throughJSON s.left, right := throughJSON s.right }

namespace Operator

def snapshot : Operator → OperatorSnapshot
  | .window op => .window op.snapshot
  | .reduce op => .reduce op.snapshot
  | .keyedProcess op => .keyedProcess op.snapshot
  | .intervalJoin op => .intervalJoin op.snapshot

/-- `Restore`, of a snapshot of the same kind of operator. -/
def restore : Operator → OperatorSnapshot → Operator
  | .window op, .window s => .window (op.restore s)
  | .reduce op, .reduce s => .reduce (op.restore s)
  | .keyedProcess op, .keyedProcess s => .keyedProcess (op.restore s)
  | .intervalJoin op, .intervalJoin s => .intervalJoin (op.restore s)
  | op, _ => op

def restored [TimeText] (op : Operator) : Operator := op.clone.restore op.snapshot.readBack

section Input

variable [TimeText] [JoinText]

def run (op : Operator) (input : List (Nat × Record)) : Reaction Operator Record :=
  .forEach (fun item op => op.process item.1 item.2) input op

/-- An operator that a run of a fresh clone reaches. -/
def Built (op : Operator) : Prop :=
  ∃ (origin : Operator) (input : List (Nat × Record)), (origin.clone.run input).next = some op

end Input

def late : Operator → List Record
  | .window op => op.late
  | _ => []

def SameContents : Operator → Operator → Prop
  | .window a, .window b => ∀ wk, a.recState.lookup wk = b.recState.lookup wk
  | .reduce a, .reduce b => ∀ key, a.values.lookup key = b.values.lookup key
  | .keyedProcess a, .keyedProcess b =>
    (∀ key name, (a.named key).lookup name = (b.named key).lookup name) ∧
      ∀ key, a.timers.lookup key = b.timers.lookup key
  | .intervalJoin a, .intervalJoin b =>
    (∀ key, a.left.lookup key = b.left.lookup key) ∧ ∀ key, a.right.lookup key = b.right.lookup key
  | _, _ => False

/-- Two operators send the same for some input, until both panic or both are left in states in
which they have written the same to their side output and send the same when they stop. -/
def SameOutputs [TimeText] [JoinText] (op other : Operator) (input : List (Nat × Record)) : Prop :=
  (op.run input).Rel (fun a b =>
    (∃ written, a.late = op.late ++ written ∧ b.late = other.late ++ written) ∧
      ∀ choice, (a.finish choice).Rel (fun _ _ => True) (b.finish choice)) (other.run input)

/-! ## The condition -/

/-- Every key in the state is valid UTF-8. -/
def ValidKeys : Operator → Prop
  | .window op => ∀ wk ∈ op.recState.keys, Utf8.Valid wk.key
  | .reduce op => ∀ key ∈ op.values.keys, Utf8.Valid key
  | .keyedProcess op =>
    (∀ key, op.named key ≠ ∅ → Utf8.Valid key) ∧ ∀ key ∈ op.timers.keys, Utf8.Valid key
  | .intervalJoin op =>
    (∀ key ∈ op.left.keys, Utf8.Valid key) ∧ ∀ key ∈ op.right.keys, Utf8.Valid key

def Storable (t : Time) : Prop := t = Time.zero ∨ t.unixNano = t ∧ t ≠ 0

def ClockStorable : Operator → Prop
  | .window op =>
    op.currentWatermark = Time.zero ∨ op.currentWatermark.unixNano = op.currentWatermark
  | .reduce _ => True
  | .keyedProcess op => Storable op.watermark
  | .intervalJoin op => Storable op.clock.leftWatermark ∧ Storable op.clock.rightWatermark

end Operator

def shownFrontier [TimeText] (r : Record) : Option Time :=
  ((r.header "window_end").bind TimeText.parse).map fun stop =>
    let allowed := windowAllowedLateness r
    if allowed > 0 then stop - allowed + 1 else stop - allowed

namespace Operator

/-- A record is not affected by what a snapshot leaves out. Before the first watermark, watermarks
and the records a window accepts are not earlier than `Time.dawn`, and the function of a keyed
process operator does not tell the zero watermark from that. A record with a window that shows
no later frontier than was shown before finds no accumulator of a window closed before it. -/
def Unaffected [TimeText] : Operator → Nat × Record → Prop
  | .window op, (_, r) => op.currentWatermark = Time.zero →
    if r.isWatermark then Time.dawn ≤ r.timestamp
    else r.isBarrier = true ∨ Time.dawn - op.allowedLateness ≤ r.timestamp
  | .reduce op, (_, r) =>
    ∀ frontier, shownFrontier r = some frontier → frontier ≤ op.windowFrontier →
    ∀ sk, sk = stateKey r ∨ sk ∈ op.values.keys → ∀ stop, stateKeyWindowEnd sk = some stop →
      frontier ≤ stop
  | .keyedProcess op, (_, r) => op.watermark = Time.zero →
    if r.isBarrier then True
    else if r.isWatermark then Time.dawn ≤ r.timestamp
    else op.fn { op.contextFor r.key r.timestamp with currentWatermark := Time.dawn } r =
      op.fn (op.contextFor r.key r.timestamp) r
  | .intervalJoin _, _ => True

end Operator

/-! ## What an operator is left with -/

theorem Time.zero_lt_dawn : Time.zero < Time.dawn := Time.zero.zero_lt_unixNano

theorem timeFromUnixNanoOrZero_of_storable {t : Time} (storable : Operator.Storable t) :
    timeFromUnixNanoOrZero (unixNanoOrZero t) = t := by
  rcases storable with rfl | ⟨fits, differs⟩
  · rfl
  · by_cases zero : t = Time.zero
    · subst zero
      rfl
    · simp [unixNanoOrZero, timeFromUnixNanoOrZero, Time.isZero, zero, fits, differs]

structure JoinClock.Settled (clock : JoinClock) : Prop where
  left : Time.zero ≤ clock.leftWatermark
  right : Time.zero ≤ clock.rightWatermark
  emitted : clock.emittedWatermark = clock.aligned

namespace JoinClock

theorem alignedWatermark_mono {a b c d : Time} (left : a ≤ c) (right : b ≤ d)
    (first : Time.zero ≤ a) (second : Time.zero ≤ b) :
    alignedWatermark a b ≤ alignedWatermark c d := by
  have least : Time.zero ≤ min c d := le_min (first.trans left) (second.trans right)
  simp only [alignedWatermark, Time.isZero, or_eq_true, decide_eq_true_eq]
  split_ifs with before after after
  · exact le_refl _
  · exact least
  · rcases after with zero | zero
    · exact absurd (.inl (le_antisymm (zero ▸ left) first)) before
    · exact absurd (.inr (le_antisymm (zero ▸ right) second)) before
  · exact min_le_min left right

variable {clock : JoinClock}

theorem Settled.zero_le_aligned (settled : clock.Settled) : Time.zero ≤ clock.aligned := by
  simp only [aligned, alignedWatermark]
  split
  · exact le_refl _
  · exact le_min settled.left settled.right

theorem observe_le {seen : JoinClock} {r : Record} (observed : clock.observe r = some seen) :
    clock.leftWatermark ≤ seen.leftWatermark ∧ clock.rightWatermark ≤ seen.rightWatermark ∧
      seen.emittedWatermark = clock.emittedWatermark := by
  simp only [observe] at observed
  split_ifs at observed <;> cases observed
  · exact ⟨le_max_left _ _, le_refl _, rfl⟩
  · exact ⟨le_refl _, le_max_left _ _, rfl⟩
  · exact ⟨le_max_left _ _, le_max_left _ _, rfl⟩

theorem Settled.advance (settled : clock.Settled) (r : Record) : (clock.advance r).1.Settled := by
  simp only [JoinClock.advance]
  cases observed : clock.observe r with
  | none => exact settled
  | some seen =>
    obtain ⟨left, right, same⟩ := observe_le observed
    have grows : clock.aligned ≤ seen.aligned :=
      alignedWatermark_mono left right settled.left settled.right
    have leftBound := settled.left.trans left
    have rightBound := settled.right.trans right
    simp only
    split
    next zero =>
      have none : seen.aligned = Time.zero := of_decide_eq_true zero
      refine ⟨leftBound, rightBound, ?_⟩
      rw [same, settled.emitted, none]
      exact le_antisymm (none ▸ grows) settled.zero_le_aligned
    · split
      · exact ⟨leftBound, rightBound, rfl⟩
      next passed =>
        refine ⟨leftBound, rightBound, ?_⟩
        rw [same, settled.emitted]
        rw [same, settled.emitted] at passed
        exact le_antisymm grows (not_lt.1 passed)

end JoinClock

namespace Operator

/-- What every input leaves: lists that are not empty, a settled clock, and a frontier that is not
before the zero time. -/
def Kept : Operator → Prop
  | .window op => op.recState.Filled
  | .reduce op => Time.zero ≤ op.windowFrontier
  | .keyedProcess _ => True
  | .intervalJoin op => op.left.Filled ∧ op.right.Filled ∧ op.clock.Settled

end Operator

namespace WindowOperator

theorem assignToWindow_filled {op : WindowOperator} (filled : op.recState.Filled) (choice : Nat)
    (key : Bytes) (win : Window) (record : Record) :
    (op.assignToWindow choice key win record).recState.Filled := by
  simp only [assignToWindow]
  split
  · exact filled.append _ _
  · refine ListState.Filled.appendAll ?_ _ _
    exact foldlRecOn (motive := ListState.Filled) _ _ filled fun _ kept wk _ => kept.clear wk

theorem fireWindow_filled [TimeText] {op after : WindowOperator} {wk : WindowKey}
    (filled : op.recState.Filled) (fires : (fireWindow wk op).next = some after) :
    after.recState.Filled := by
  simp only [fireWindow] at fires
  split at fires
  · cases fires
  · cases fires
    exact filled.clear wk

theorem process_filled [TimeText] {op after : WindowOperator} {choice : Nat} {record : Record}
    (filled : op.recState.Filled) (goes : (op.process choice record).next = some after) :
    after.recState.Filled := by
  simp only [process] at goes
  split at goes
  · have advanced : ({ op with currentWatermark := max op.currentWatermark record.timestamp } :
        WindowOperator).recState.Filled := filled
    refine next_forEach (fun op : WindowOperator => op.recState.Filled)
      (fun wk s t held next => ?_) advanced goes
    split at next
    · cases next
      exact held
    · exact fireWindow_filled held next
  · split at goes
    · cases goes
      exact filled
    · split at goes
      · cases goes
        simp only [emitLate]
        split <;> exact filled
      · cases goes
        exact foldlRecOn (motive := fun op : WindowOperator => op.recState.Filled) _ _ filled
          fun op held win _ => assignToWindow_filled held choice record.key win record.stored

end WindowOperator

namespace ReduceOperator

variable [TimeText]

theorem advanceWindowFrontier_eq (op : ReduceOperator) (r : Record) :
    op.advanceWindowFrontier r = match shownFrontier r with
      | none => op
      | some frontier =>
        if frontier > op.windowFrontier then
          { op with windowFrontier := frontier }.evictClosedWindows
        else op := by
  simp only [advanceWindowFrontier, shownFrontier]
  cases (r.header "window_end").bind TimeText.parse <;> rfl

theorem le_advanceWindowFrontier (op : ReduceOperator) (r : Record) :
    op.windowFrontier ≤ (op.advanceWindowFrontier r).windowFrontier := by
  rw [advanceWindowFrontier_eq]
  cases shownFrontier r with
  | none => exact le_refl _
  | some frontier =>
    simp only
    split
    next moves =>
      exact le_of_lt moves
    · exact le_refl _

theorem process_frontier {op after : ReduceOperator} {record : Record}
    (goes : (op.process record).next = some after) : op.windowFrontier ≤ after.windowFrontier := by
  simp only [process] at goes
  split at goes
  · cases goes
    exact le_refl _
  · split at goes
    · cases goes
      exact le_refl _
    · split at goes
      · cases goes
      · cases goes
        exact le_advanceWindowFrontier _ record

end ReduceOperator

namespace IntervalJoinOperator

theorem evict_filled {state : ListState Bytes Record} (filled : state.Filled) (cutoff : Time) :
    (evict state cutoff).Filled :=
  foldlRecOn (motive := ListState.Filled) _ _ filled fun _ kept key _ =>
    (kept.clear key).appendAll key _

variable [JoinText]

theorem emitMatches_next {op after : IntervalJoinOperator} {pair : Record → Record × Record}
    {others : List Record}
    (goes : (emitMatches pair others op).next = some after) : after = op := by
  refine next_forEach (fun s => s = op) (fun other s t same next => ?_) rfl goes
  subst same
  split at next
  · split at next
    · cases next
    · exact (some.inj next).symm
  · exact (some.inj next).symm

theorem process_kept {op after : IntervalJoinOperator} {r : Record} (kept : op.left.Filled ∧
    op.right.Filled ∧ op.clock.Settled) (goes : (op.process r).next = some after) :
    after.left.Filled ∧ after.right.Filled ∧ after.clock.Settled := by
  obtain ⟨left, right, settled⟩ := kept
  -- the new record is appended once its matches have been sent
  have joined : ∀ {pair others} {append : IntervalJoinOperator → IntervalJoinOperator},
      ((emitMatches pair others op).andThen fun op => .send [] (append op)).next = some after →
        after = append op := by
    intro pair others append ends
    simp only [Reaction.andThen] at ends
    cases next : (emitMatches pair others op).next with
    | none => simp [next] at ends
    | some same =>
      obtain rfl := emitMatches_next next
      simp only [next] at ends
      exact (some.inj ends).symm
  simp only [process] at goes
  split at goes
  · simp only [handleWatermark] at goes
    cases goes
    split
    · exact ⟨left, right, settled.advance r⟩
    · exact ⟨evict_filled left _, evict_filled right _, settled.advance r⟩
  · split at goes
    · cases goes
      exact ⟨left, right, settled⟩
    · simp only [handleRecord] at goes
      split at goes
      · obtain rfl := joined goes
        exact ⟨left.append _ _, right, settled⟩
      · split at goes
        · obtain rfl := joined goes
          exact ⟨left, right.append _ _, settled⟩
        · cases goes
          exact ⟨left, right, settled⟩

end IntervalJoinOperator

namespace Operator

variable [TimeText]

omit [TimeText] in
theorem kept_clone (op : Operator) : op.clone.Kept := by
  cases op with
  | window op => exact fun _ => by simp
  | reduce op => exact le_refl Time.zero
  | keyedProcess op => trivial
  | intervalJoin op => exact ⟨fun _ => by simp, fun _ => by simp, le_refl _, le_refl _, rfl⟩

theorem Kept.process [JoinText] {op after : Operator} (kept : op.Kept) {choice : Nat} {r : Record}
    (goes : (op.process choice r).next = some after) : after.Kept := by
  cases op with obtain ⟨next, ends, rfl⟩ := map_eq_some_iff.1 goes
  | window op =>
    exact WindowOperator.process_filled kept ends
  | reduce op =>
    have start : Time.zero ≤ op.windowFrontier := kept
    exact start.trans (ReduceOperator.process_frontier ends)
  | keyedProcess op =>
    trivial
  | intervalJoin op =>
    exact IntervalJoinOperator.process_kept kept ends

theorem Built.kept [JoinText] {op : Operator} (built : op.Built) : op.Kept := by
  obtain ⟨origin, input, ends⟩ := built
  exact next_forEach Kept (fun item s t kept next => kept.process next)
    (kept_clone origin) ends

end Operator

/-! ## The contents that are read back -/

variable {ν : Type}

theorem throughJSON_same_iff {state : ValueState Bytes ν} :
    (∀ key, (throughJSON state).lookup key = state.lookup key) ↔
    ∀ key ∈ state.keys, Utf8.Valid key :=
  throughObject_same_iff id (fun _ => rfl) fun _ valid => Utf8.coerce_of_valid valid

theorem throughJSON_eq {state : ValueState Bytes ν}
    (valid : ∀ key ∈ state.keys, Utf8.Valid key) : throughJSON state = state :=
  throughObject_eq fun key mem => Utf8.coerce_of_valid (valid key mem)

theorem ofEntries_throughJSON {state : ListState Bytes ν} (filled : state.Filled) :
    ofEntries (throughJSON state).entries = throughJSON state :=
  ofEntries_eq filled.throughObject

namespace KeyedProcessOperator

theorem lookup_held (op : KeyedProcessOperator) (key : Bytes) :
    op.held.lookup key = (op.state.lookup key).filter fun values => !values.entries.isEmpty := by
  rw [held, lookup_to_alist,
    dlookup_filter op.state.nodupKeys (fun values : KeyedValues => !values.entries.isEmpty)]
  rfl

theorem named_eq_held (op : KeyedProcessOperator) (key : Bytes) :
    op.named key = (op.held.lookup key).getD ∅ := by
  rw [lookup_held, named]
  cases op.state.lookup key with
  | none => rfl
  | some values =>
    by_cases empty : values = ∅
    · subst empty
      rfl
    · have filled : values.entries ≠ [] := fun none => empty (AList.ext none)
      simp [Option.filter, filled]

theorem mem_held (op : KeyedProcessOperator) (key : Bytes) : key ∈ op.held ↔ op.named key ≠ ∅ := by
  rw [← lookup_isSome, lookup_held, named]
  cases op.state.lookup key with
  | none => simp
  | some values =>
    by_cases empty : values = ∅
    · subst empty
      simp
    · have filled : values.entries ≠ [] := fun none => empty (AList.ext none)
      simp [Option.filter, filled, empty]

end KeyedProcessOperator

namespace KeyedProcessOperator

theorem ne_empty_iff {values : KeyedValues} : values ≠ ∅ ↔ ∃ name, (values.lookup name).isSome := by
  constructor
  · intro filled
    cases entries : values.entries with
    | nil => exact absurd (AList.ext entries) filled
    | cons entry rest =>
      have listed : entry ∈ values.entries := by simp [entries]
      exact ⟨entry.1, lookup_isSome.2 (AList.mem_keys.2 (mem_map_of_mem listed))⟩
  · rintro ⟨name, found⟩ rfl
    simp at found

abbrev heldBack (op : KeyedProcessOperator) : ValueState Bytes KeyedValues :=
  throughObject id Utf8.coerce (fun later earlier => later ∪ earlier) op.held

theorem mem_heldBack (op : KeyedProcessOperator) (key : Bytes) :
    key ∈ op.heldBack ↔ (op.heldBack.lookup key).getD ∅ ≠ ∅ := by
  have written : ∀ key values, op.held.lookup key = some values → values ≠ ∅ := by
    intro key values found
    have named : op.named key = values := by rw [named_eq_held, found, getD_some]
    rw [← named, ← mem_held, ← lookup_isSome, found]
    rfl
  have unions : ∀ later earlier : KeyedValues, later ≠ ∅ → earlier ≠ ∅ → later ∪ earlier ≠ ∅ := by
    intro later earlier filled _
    obtain ⟨name, found⟩ := ne_empty_iff.1 filled
    exact ne_empty_iff.2 ⟨name, lookup_isSome.2 (mem_union.2 (.inl (lookup_isSome.1 found)))⟩
  rw [← lookup_isSome]
  cases found : op.heldBack.lookup key with
  | none => simp
  | some values =>
    have filled : values ≠ ∅ := throughObject_holds written unions key values found
    simp [filled]

theorem named_same_iff (op : KeyedProcessOperator) :
    (∀ key name, (op.named key).lookup name = ((op.heldBack.lookup key).getD ∅).lookup name) ↔
      ∀ key, op.named key ≠ ∅ → Utf8.Valid key := by
  constructor
  · intro same
    have keys : ∀ key, key ∈ op.heldBack ↔ key ∈ op.held := by
      intro key
      rw [mem_heldBack, mem_held, ne_empty_iff, ne_empty_iff]
      exact exists_congr fun name => by rw [same]
    intro key filled
    exact valid_of_keys id (fun _ => rfl) keys key (AList.mem_keys.1 ((op.mem_held key).2 filled))
  · intro valid key name
    have back : op.heldBack = op.held := throughObject_eq fun key mem =>
      Utf8.coerce_of_valid (valid key ((op.mem_held key).1 (AList.mem_keys.2 mem)))
    rw [back, ← named_eq_held]

end KeyedProcessOperator

namespace Operator

variable [TimeText]

theorem sameContents_iff {op : Operator}
    (kept : op.Kept) : op.SameContents op.restored ↔ op.ValidKeys := by
  cases op with
  | window op =>
    have rebuilt : ofEntries (throughObject WindowKey.text WindowKey.coerced takeLast
        op.recState).entries =
          throughObject WindowKey.text WindowKey.coerced takeLast op.recState :=
      ofEntries_eq (ListState.Filled.throughObject kept)
    have exactly : (∀ wk, (throughObject WindowKey.text WindowKey.coerced takeLast
        op.recState).lookup wk = op.recState.lookup wk) ↔
          ∀ wk ∈ op.recState.keys,
          Utf8.Valid wk.key :=
      throughObject_same_iff WindowKey.key (fun _ => rfl) fun wk valid =>
        WindowKey.coerced_of_valid valid
    rw [ValidKeys, ← exactly]
    simp only [restored, clone, snapshot, WindowOperator.snapshot, OperatorSnapshot.readBack,
      restore,
      WindowOperator.restore, SameContents, rebuilt]
    exact forall_congr' fun wk => eq_comm
  | reduce op =>
    rw [ValidKeys, ← throughJSON_same_iff]
    exact forall_congr' fun key => eq_comm
  | keyedProcess op =>
    rw [ValidKeys, ← op.named_same_iff, ← throughJSON_same_iff]
    exact and_congr Iff.rfl (forall_congr' fun key => eq_comm)
  | intervalJoin op =>
    obtain ⟨left, right, -⟩ := kept
    rw [ValidKeys, ← throughJSON_same_iff, ← throughJSON_same_iff]
    simp only [restored, clone, snapshot, IntervalJoinOperator.snapshot, OperatorSnapshot.readBack,
      restore, IntervalJoinOperator.restore, SameContents, ofEntries_throughJSON left,
      ofEntries_throughJSON right]
    exact and_congr (forall_congr' fun key => eq_comm) (forall_congr' fun key => eq_comm)

end Operator

/-! ## An operator beside its restored copy -/

def ReadAs (t back : Time) : Prop := back = t ∨ t = Time.zero ∧ back = Time.dawn

theorem ReadAs.max {t back ts : Time} (read : ReadAs t back)
    (late : t = Time.zero → Time.dawn ≤ ts) : max back ts = max t ts := by
  rcases read with rfl | ⟨rfl, rfl⟩
  · rfl
  · rw [max_eq_right (late rfl), max_eq_right (Time.zero_lt_dawn.le.trans (late rfl))]

namespace WindowOperator

/-- Two window operators differ in their watermarks, and in what one wrote to its side output
earlier. -/
structure Twins (read : Time → Time → Prop) (earlier : List Record) (a b : WindowOperator) :
    Prop where
  config : b.toWindowConfig = a.toWindowConfig
  recState : b.recState = a.recState
  watermark : read a.currentWatermark b.currentWatermark
  late : a.late = earlier ++ b.late

variable {read : Time → Time → Prop} {earlier : List Record} {a b : WindowOperator}

theorem Twins.assignToWindow (twins : Twins read earlier a b) (choice : Nat) (key : Bytes)
    (win : Window) (record : Record) : Twins read earlier (a.assignToWindow choice key win record)
      (b.assignToWindow choice key win record) := by
  obtain ⟨config, recState, watermark, late⟩ := b
  obtain ⟨rfl, rfl, readAs, side⟩ := twins
  simp only [WindowOperator.assignToWindow, overlapping]
  generalize (if a.assigner.isSession = true then filter _ _ else []) = toRemove
  cases toRemove <;> exact ⟨rfl, rfl, readAs, side⟩

theorem Twins.handleDataRecord (twins : Twins read earlier a b) (choice : Nat) (record : Record) :
    Twins read earlier (a.handleDataRecord choice record) (b.handleDataRecord choice record) := by
  simp only [WindowOperator.handleDataRecord, twins.config]
  generalize a.assigner.assignWindows record.timestamp = windows
  induction windows generalizing a b with
  | nil => exact twins
  | cons win rest ih => exact ih (twins.assignToWindow choice record.key win record.stored)

variable [TimeText]

theorem Twins.fireWindow (twins : Twins read earlier a b) (wk : WindowKey) :
    (fireWindow wk a).Rel (Twins read earlier) (fireWindow wk b) := by
  have fires : b.firing wk (b.recState.getAll wk) = a.firing wk (a.recState.getAll wk) := by
    simp only [firing, twins.config, twins.recState]
  simp only [WindowOperator.fireWindow, fires]
  cases a.firing wk (a.recState.getAll wk) with
  | none => exact rel_fail
  | some records =>
    refine rel_send records ⟨twins.config, ?_, twins.watermark, twins.late⟩
    show b.recState.clear wk = a.recState.clear wk
    rw [twins.recState]

theorem Twins.flushRemaining (twins : Twins read earlier a b) (choice : Nat) :
    (a.flushRemaining choice).Rel (Twins read earlier) (b.flushRemaining choice) := by
  simp only [WindowOperator.flushRemaining, twins.recState]
  exact rel_forEach (fun wk _ _ twins _ => twins.fireWindow wk) twins
    (along_trivial _ _)

theorem Twins.handleWatermark (twins : Twins ReadAs earlier a b) (choice : Nat) {r : Record}
    (late : a.currentWatermark = Time.zero → Time.dawn ≤ r.timestamp) :
    (a.handleWatermark choice r).Rel (Twins ReadAs earlier) (b.handleWatermark choice r) := by
  have advanced : Twins (fun t back => back = t) earlier
      { a with currentWatermark := max a.currentWatermark r.timestamp }
      { b with currentWatermark := max b.currentWatermark r.timestamp } :=
    ⟨twins.config, twins.recState, twins.watermark.max late, twins.late⟩
  have fires : ∀ wk (s t : WindowOperator), Twins (fun t back => back = t) earlier s t → True →
      (if wk.stop + s.allowedLateness > s.currentWatermark then .send [] s else
        WindowOperator.fireWindow wk s).Rel (Twins (fun t back => back = t) earlier)
      (if wk.stop + t.allowedLateness > t.currentWatermark then .send [] t else
        WindowOperator.fireWindow wk t) := by
    intro wk s t same _
    rw [same.watermark, same.config]
    split
    · exact rel_send [] same
    · exact same.fireWindow wk
  have loop := rel_forEach fires advanced
    (along_trivial (arrange choice a.recState.keys) _)
  have listing : arrange choice b.recState.keys = arrange choice a.recState.keys := by
    rw [twins.recState]
  have weaker : ∀ s t, Twins (fun t back => back = t) earlier s t → Twins ReadAs earlier s t :=
    fun s t same => ⟨same.config, same.recState, .inl same.watermark, same.late⟩
  simp only [WindowOperator.handleWatermark, listing]
  exact loop.mono weaker

theorem Twins.process (twins : Twins ReadAs earlier a b) (choice : Nat) {r : Record}
    (unaffected : Operator.Unaffected (.window a) (choice, r)) :
    (a.process choice r).Rel (Twins ReadAs earlier) (b.process choice r) := by
  simp only [Operator.Unaffected] at unaffected
  simp only [WindowOperator.process]
  split
  next watermark =>
    refine twins.handleWatermark choice fun zero => ?_
    simpa [watermark] using unaffected zero
  next data =>
    split
    · exact rel_send [r] twins
    next plain =>
      -- before the first watermark neither operator drops the record
      have accepted :
        a.currentWatermark = Time.zero → Time.dawn - a.allowedLateness ≤ r.timestamp := by
        intro zero
        simpa [data, plain] using unaffected zero
      have tooLate : b.isTooLate r.timestamp = a.isTooLate r.timestamp := by
        simp only [isTooLate, twins.config]
        rcases twins.watermark with same | ⟨zero, dawn⟩
        · rw [same]
        · rw [zero, dawn]
          have kept : ¬r.timestamp < Time.dawn - a.allowedLateness := not_lt.2 (accepted zero)
          simp [Time.isZero, kept]
      rw [tooLate]
      split
      next dropped =>
        have same : b.currentWatermark = a.currentWatermark := by
          rcases twins.watermark with same | ⟨zero, -⟩
          · exact same
          · simp [isTooLate, zero, Time.isZero] at dropped
        refine rel_send [] ?_
        simp only [emitLate, twins.config, same]
        split
        · refine ⟨rfl, twins.recState, .inl rfl, ?_⟩
          simp only [twins.late, append_assoc]
        · exact twins
      · exact rel_send [] (twins.handleDataRecord choice r)

end WindowOperator

namespace ReduceOperator

variable [TimeText]

theorem evictClosedWindows_eq {op : ReduceOperator} (going : ∀ sk ∈ op.values.keys, ∀ stop,
    stateKeyWindowEnd sk = some stop → op.windowFrontier ≤ stop) : op.evictClosedWindows = op := by
  have none : (op.values.keys.filter fun sk =>
      (stateKeyWindowEnd sk).any fun stop => decide (stop < op.windowFrontier)) = [] := by
    refine filter_eq_nil_iff.2 fun sk mem => ?_
    cases parsed : stateKeyWindowEnd sk with
    | none => simp
    | some stop => simpa using going sk mem stop parsed
  simp only [evictClosedWindows, none, foldl_nil]

structure Twins (a b : ReduceOperator) : Prop where
  fn : b.fn = a.fn
  values : b.values = a.values
  frontier : b.windowFrontier ≤ a.windowFrontier

variable {a b : ReduceOperator}

theorem Twins.advanceWindowFrontier (twins : Twins a b) {r : Record}
    (unaffected : ∀ frontier, shownFrontier r = some frontier → frontier ≤ a.windowFrontier →
      ∀ sk ∈ a.values.keys, ∀ stop, stateKeyWindowEnd sk = some stop → frontier ≤ stop) :
    Twins (a.advanceWindowFrontier r) (b.advanceWindowFrontier r) := by
  rw [advanceWindowFrontier_eq, advanceWindowFrontier_eq]
  obtain ⟨fn, values, known⟩ := b
  obtain ⟨rfl, rfl, behind⟩ := twins
  cases shown : shownFrontier r with
  | none => exact ⟨rfl, rfl, behind⟩
  | some frontier =>
    simp only
    by_cases moves : frontier > a.windowFrontier
    · have mem' : frontier > known := lt_of_le_of_lt behind moves
      rw [if_pos moves, if_pos mem']
      exact ⟨rfl, rfl, le_refl _⟩
    · rw [if_neg moves]
      have within : frontier ≤ a.windowFrontier := not_lt.1 moves
      split
      · -- only the copy moves its frontier, and finds nothing to evict
        rw [evictClosedWindows_eq (unaffected frontier shown within)]
        exact ⟨rfl, rfl, within⟩
      · exact ⟨rfl, rfl, behind⟩

theorem Twins.process (twins : Twins a b) {choice : Nat} {r : Record}
    (unaffected : Operator.Unaffected (.reduce a) (choice, r)) :
    (a.process r).Rel Twins (b.process r) := by
  simp only [Operator.Unaffected] at unaffected
  simp only [ReduceOperator.process, twins.fn, twins.values]
  split
  · exact rel_send [r] twins
  · split
    · exact rel_send [r] twins
    · cases a.fn (a.values.lookup (stateKey r)) r with
      | none => exact rel_fail
      | some accum =>
        have inserted : Twins { a with values := a.values.insert (stateKey r) (accum.getD []) }
            { b with fn := a.fn, values := a.values.insert (stateKey r) (accum.getD []) } :=
          ⟨rfl, rfl, twins.frontier⟩
        refine rel_send _ (inserted.advanceWindowFrontier ?_)
        intro frontier shown within sk mem
        have listed : sk = stateKey r ∨ sk ∈ a.values.keys := by
          have inserted := AList.mem_keys.2 mem
          rwa [mem_insert, AList.mem_keys] at inserted
        exact unaffected frontier shown within sk listed

end ReduceOperator

namespace KeyedProcessOperator

structure Twins (read : Time → Time → Prop) (a b : KeyedProcessOperator) : Prop where
  fn : b.fn = a.fn
  onTimer : b.onTimer = a.onTimer
  named : ∀ key, b.named key = a.named key
  timers : b.timers = a.timers
  watermark : read a.watermark b.watermark

variable {read : Time → Time → Prop} {a b : KeyedProcessOperator}

theorem Twins.call (twins : Twins read a b) (key : Bytes) (effect : Option KeyedEffect) :
    (a.call key effect).Rel (Twins read) (b.call key effect) := by
  cases effect with
  | none => exact rel_fail
  | some effect =>
    refine rel_send effect.records ⟨twins.fn, twins.onTimer, fun other => ?_, ?_,
      twins.watermark⟩
    · by_cases same : other = key
      · subst same
        simp [KeyedProcessOperator.apply, KeyedProcessOperator.named]
      · simpa [KeyedProcessOperator.apply, KeyedProcessOperator.named, lookup_insert_ne same]
          using twins.named other
    · simp only [KeyedProcessOperator.apply, twins.timers]

theorem Twins.fireTimers (twins : Twins (fun t back => back = t) a b) (choice : Nat) :
    (a.fireTimers choice).Rel (Twins fun t back => back = t) (b.fireTimers choice) := by
  simp only [KeyedProcessOperator.fireTimers, twins.onTimer, twins.watermark, twins.timers]
  cases a.onTimer with
  | none => exact rel_send [] twins
  | some onTimer =>
    simp only
    split
    · exact rel_send [] twins
    · refine rel_forEach (fun key s t same _ => ?_) twins (along_trivial _ _)
      simp only [fireKey, same.timers, same.watermark]
      split
      · exact rel_send [] same
      · refine rel_forEach (fun ts s t same _ => ?_) ⟨same.fn, same.onTimer, same.named, rfl,
          rfl⟩ (along_trivial _ _)
        have context : t.contextFor key t.watermark = s.contextFor key s.watermark := by
          have values := same.named key
          simp only [KeyedProcessOperator.named] at values
          simp only [contextFor, same.watermark, values]
        rw [context]
        exact same.call key _

theorem Twins.process [TimeText] (twins : Twins ReadAs a b) {choice : Nat} {r : Record}
    (unaffected : Operator.Unaffected (.keyedProcess a) (choice, r)) :
    (a.process choice r).Rel (Twins ReadAs) (b.process choice r) := by
  simp only [Operator.Unaffected] at unaffected
  simp only [KeyedProcessOperator.process]
  split
  · exact rel_send [r] twins
  next plain =>
    split
    next watermark =>
      have late : a.watermark = Time.zero → Time.dawn ≤ r.timestamp := by
        intro zero
        simpa [plain, watermark] using unaffected zero
      have advanced : Twins (fun t back => back = t)
          { a with watermark := max a.watermark r.timestamp }
          { b with watermark := max b.watermark r.timestamp } :=
        ⟨twins.fn, twins.onTimer, twins.named, twins.timers, twins.watermark.max late⟩
      refine (advanced.fireTimers choice).andThen fun s t same => rel_send [r] ?_
      exact ⟨same.fn, same.onTimer, same.named, same.timers, .inl same.watermark⟩
    next data =>
      have values := twins.named r.key
      simp only [KeyedProcessOperator.named] at values
      have result :
        b.fn (b.contextFor r.key r.timestamp) r = a.fn (a.contextFor r.key r.timestamp) r := by
        rcases twins.watermark with same | ⟨zero, dawn⟩
        · simp only [contextFor, twins.fn, values, same]
        · have told := unaffected zero
          simp only [plain, data, false_eq_true, if_false] at told
          rw [← told]
          simp only [contextFor, twins.fn, values, dawn]
      rw [result]
      exact twins.call r.key _

end KeyedProcessOperator

namespace Operator

def Twins (earlier : List Record) : Operator → Operator → Prop
  | .window a, .window b => a.Twins ReadAs earlier b
  | .reduce a, .reduce b => earlier = [] ∧ a.Twins b
  | .keyedProcess a, .keyedProcess b => earlier = [] ∧ a.Twins ReadAs b
  | .intervalJoin a, .intervalJoin b => earlier = [] ∧ b = a
  | _, _ => False

variable [TimeText]

/-- A restored copy is a twin of the operator, unless its keys are not text or its watermark cannot
be stored. -/
theorem twins_restored {op : Operator} (kept : op.Kept) (valid : op.ValidKeys)
    (storable : op.ClockStorable) : op.Twins op.late op.restored := by
  cases op with
  | window op =>
    have windows :
      throughObject WindowKey.text WindowKey.coerced takeLast op.recState = op.recState :=
      throughObject_eq fun wk mem => WindowKey.coerced_of_valid (valid wk mem)
    refine ⟨rfl, ?_, ?_, (append_nil _).symm⟩
    · show ofEntries (throughObject WindowKey.text WindowKey.coerced takeLast
        op.recState).entries = op.recState
      rw [windows, ofEntries_eq kept]
    · show ReadAs op.currentWatermark op.currentWatermark.unixNano
      rcases storable with zero | fits
      · exact .inr ⟨zero, congrArg Time.unixNano zero⟩
      · exact .inl fits
  | reduce op => exact ⟨rfl, rfl, throughJSON_eq valid, kept⟩
  | keyedProcess op =>
    have back : op.heldBack = op.held := throughObject_eq fun key mem =>
      Utf8.coerce_of_valid (valid.1 key ((op.mem_held key).1 (AList.mem_keys.2 mem)))
    refine ⟨rfl, rfl, rfl, fun key => ?_, throughJSON_eq valid.2, ?_⟩
    · rw [op.named_eq_held, ← back]
      rfl
    · show ReadAs op.watermark
        (timeFromUnixNanoOrZero (unixNanoOrZero op.watermark)).unixNano
      rw [timeFromUnixNanoOrZero_of_storable storable]
      rcases storable with zero | ⟨fits, -⟩
      · exact .inr ⟨zero, congrArg Time.unixNano zero⟩
      · exact .inl fits
  | intervalJoin op =>
    obtain ⟨left, right, settled⟩ := kept
    have clock : ({ op.clock with
        leftWatermark := timeFromUnixNanoOrZero (unixNanoOrZero op.clock.leftWatermark)
        rightWatermark := timeFromUnixNanoOrZero (unixNanoOrZero op.clock.rightWatermark)
        emittedWatermark := alignedWatermark
          (timeFromUnixNanoOrZero (unixNanoOrZero op.clock.leftWatermark))
          (timeFromUnixNanoOrZero (unixNanoOrZero op.clock.rightWatermark)) } : JoinClock) =
        op.clock := by
      rw [timeFromUnixNanoOrZero_of_storable storable.1,
        timeFromUnixNanoOrZero_of_storable storable.2]
      have passed := settled.emitted
      simp only [JoinClock.aligned] at passed
      rw [← passed]
    refine ⟨rfl, ?_⟩
    show ({ op with
      clock := _
      left := ofEntries (throughJSON op.left).entries
      right := ofEntries (throughJSON op.right).entries } : IntervalJoinOperator) = op
    rw [throughJSON_eq valid.1, throughJSON_eq valid.2, ofEntries_eq left,
      ofEntries_eq right]
    exact congrArg (fun clock => { op with clock }) clock

variable [JoinText]

theorem Twins.process {earlier : List Record} {a b : Operator} (twins : a.Twins earlier b)
    {item : Nat × Record} (unaffected : a.Unaffected item) :
    (a.process item.1 item.2).Rel (Operator.Twins earlier) (b.process item.1 item.2) := by
  cases a with
  | window a =>
    cases b with
    | window b =>
      have same : a.Twins ReadAs earlier b := twins
      exact (same.process item.1 unaffected).map fun _ _ kept => kept
    | _ => exact twins.elim
  | reduce a =>
    cases b with
    | reduce b =>
      obtain ⟨silent, same⟩ : earlier = [] ∧ a.Twins b := twins
      exact (same.process unaffected).map fun _ _ kept => ⟨silent, kept⟩
    | _ => exact twins.elim
  | keyedProcess a =>
    cases b with
    | keyedProcess b =>
      obtain ⟨silent, same⟩ : earlier = [] ∧ a.Twins ReadAs b := twins
      exact (same.process unaffected).map fun _ _ kept => ⟨silent, kept⟩
    | _ => exact twins.elim
  | intervalJoin a =>
    cases b with
    | intervalJoin b =>
      obtain ⟨silent, rfl⟩ : earlier = [] ∧ b = a := twins
      refine ⟨rfl, ?_⟩
      simp only [Operator.process, Reaction.map]
      cases (b.process item.2).next with
      | none => exact .none
      | some next => exact .some ⟨silent, rfl⟩
    | _ => exact twins.elim

omit [JoinText] in
theorem Twins.finish {earlier : List Record} {a b : Operator} (twins : a.Twins earlier b)
    (choice : Nat) : a.late = earlier ++ b.late ∧ (a.finish choice).Rel (fun _ _ => True)
    (b.finish choice) := by
  cases a with
  | window a =>
    cases b with
    | window b =>
      have same : a.Twins ReadAs earlier b := twins
      exact ⟨same.late, (same.flushRemaining choice).map fun _ _ _ => trivial⟩
    | _ => exact twins.elim
  | reduce a =>
    cases b with
    | reduce b => exact ⟨by simp [late, twins.1], rel_send [] trivial⟩
    | _ => exact twins.elim
  | keyedProcess a =>
    cases b with
    | keyedProcess b => exact ⟨by simp [late, twins.1], rel_send [] trivial⟩
    | _ => exact twins.elim
  | intervalJoin a =>
    cases b with
    | intervalJoin b => exact ⟨by simp [late, twins.1], rel_send [] trivial⟩
    | _ => exact twins.elim

theorem Twins.sameOutputs {op other : Operator} (twins : op.Twins op.late other)
    (silent : other.late = []) {input : List (Nat × Record)} (unaffected : Reaction.Along Unaffected
    (fun item op => op.process item.1 item.2) input op) : op.SameOutputs other input := by
  have rounds : (op.run input).Rel (Operator.Twins op.late) (other.run input) :=
    rel_forEach (fun _ _ _ twins met => twins.process met) twins unaffected
  refine rounds.mono fun a b same =>
    ⟨⟨b.late, (same.finish 0).1, ?_⟩, fun choice => (same.finish choice).2⟩
  rw [silent, nil_append]

omit [JoinText] in
theorem late_restored (op : Operator) : op.restored.late = [] := by
  cases op <;> rfl

/-- Whatever input an operator has seen: its contents are restored exactly if its keys are text. If
they are and its watermark can be stored, the restored copy sends what the operator sends, for
every input that is not affected by what a snapshot leaves out. -/
theorem snapshot_restores {op : Operator} (built : op.Built) :
    (op.SameContents op.restored ↔ op.ValidKeys) ∧
      (op.ValidKeys → op.ClockStorable → ∀ input : List (Nat × Record),
        Reaction.Along Unaffected (fun item op => op.process item.1 item.2) input op →
          op.SameOutputs op.restored input) := by
  refine ⟨sameContents_iff built.kept, fun valid storable input unaffected => ?_⟩
  exact (twins_restored built.kept valid storable).sameOutputs op.late_restored unaffected

end Operator

section Examples

local instance byteTimeText : TimeText where
  format t := [UInt8.ofNat t.toNat]
  parse
    | [b] => some b.toNat
    | _ => none

local instance plainJoinText : JoinText := ⟨fun left right => left ++ right⟩

def tally : ReduceOperator where
  fn accum _ := some (some (1 :: accum.getD []))

def keyedRecord (key : Bytes) : Record := { key, timestamp := 1 }

def tallied : Operator := .reduce { tally with values := AList.insert [195, 169] [1] ∅ }

/-- A key that is text keeps its count in the restored operator. -/
theorem snapshot_restores_tally : tallied.SameContents tallied.restored ∧
    tallied.SameOutputs tallied.restored [(0, keyedRecord [195, 169])] := by
  have built : tallied.Built := ⟨.reduce tally, [(0, keyedRecord [195, 169])], rfl⟩
  have valid : tallied.ValidKeys := by
    show ∀ key ∈ [[195, 169]], Utf8.Valid key
    decide
  have restores := Operator.snapshot_restores built
  refine ⟨restores.1.2 valid,
    restores.2 valid trivial _ ⟨fun frontier shown => ?_, fun _ _ => trivial⟩⟩
  cases shown

theorem not_sameOutputs {op other : Operator} {input : List (Nat × Record)}
    (differs : (op.run input).sends ≠ (other.run input).sends) : ¬op.SameOutputs other input :=
  fun same => differs same.sends

theorem not_sameOutputs_of_late {op other : Operator} {input : List (Nat × Record)}
    (silent : op.late = [] ∧ other.late = [])
    (differs : (op.run input).next.map (fun a => a.late.length) ≠
      (other.run input).next.map (fun b => b.late.length)) : ¬op.SameOutputs other input := by
  rintro ⟨-, next⟩
  generalize (op.run input).next = left at differs next
  generalize (other.run input).next = right at differs next
  cases next with
  | none => exact differs rfl
  | some ends =>
    obtain ⟨⟨written, first, second⟩, -⟩ := ends
    rw [silent.1] at first
    rw [silent.2] at second
    exact differs (by simp [first, second])

def windowRecord (stop : UInt8) : Record :=
  { key := [107], timestamp := 1, headers := [("window_start", [0]), ("window_end", [stop])] }

/-- With valid keys, what is restored still emits differently on some input. -/
def Diverges (op : Operator) : Prop :=
  op.Built ∧ op.ValidKeys ∧ ∃ input, ¬op.SameOutputs op.restored input

/-- The counts of two keys that are not text become one count of a third key. With text keys, the
copy of a reduce operator evicts a window that the operator keeps; that of a window operator drops a
record, and that of a keyed process operator shows another watermark, before the first watermark;
that of a join passes the watermark of the Unix epoch on again. -/
theorem snapshot_loses : (∃ op : Operator, op.Built ∧ ¬op.SameContents op.restored ∧
      ∃ input, ¬op.SameOutputs op.restored input) ∧
    (∃ op, Diverges (.reduce op)) ∧ (∃ op, Diverges (.window op)) ∧
    (∃ op, Diverges (.keyedProcess op)) ∧ ∃ op, Diverges (.intervalJoin op) := by
  refine ⟨?_, ?_, ?_, ?_, ?_⟩
  · let op : Operator :=
      .reduce { tally with values := AList.insert [254] [1] (AList.insert [255] [1] ∅) }
    have built : op.Built := ⟨.reduce tally, [(0, keyedRecord [255]), (0, keyedRecord [254])], rfl⟩
    refine ⟨op, built, ?_, [(0, keyedRecord [255])], not_sameOutputs (by decide)⟩
    rw [Operator.sameContents_iff built.kept]
    show ¬∀ key ∈ [[254], [255]], Utf8.Valid key
    decide
  · let op : ReduceOperator :=
      { tally with
        values := AList.insert [107, 47, 0, 47, 3] [1] (AList.insert [107, 47, 0, 47, 9] [1] ∅)
        windowFrontier := 9 }
    refine ⟨op, ⟨.reduce tally, [(0, windowRecord 9), (0, windowRecord 3)], rfl⟩, ?_,
      [(0, windowRecord 5), (0, windowRecord 3)], not_sameOutputs (by decide)⟩
    show ∀ key ∈ [[107, 47, 0, 47, 3], [107, 47, 0, 47, 9]], Utf8.Valid key
    decide
  · let op : WindowOperator := { assigner := .tumbling ⟨1, 0, by decide⟩, lateSink := true }
    refine ⟨op, ⟨.window op, [], rfl⟩, fun wk mem => (nomatch mem),
      [(0, { timestamp := Time.zero + 1 })], not_sameOutputs_of_late ⟨rfl, rfl⟩ (by decide)⟩
  · let op : KeyedProcessOperator :=
      { fn := fun context r => some ⟨∅, [], [{ r with timestamp := context.currentWatermark }]⟩ }
    refine ⟨op, ⟨.keyedProcess op, [], rfl⟩, ⟨fun key held => ?_, fun key mem => (nomatch mem)⟩,
      [(0, keyedRecord [107])], not_sameOutputs (by decide)⟩
    exact absurd rfl held
  · let op : IntervalJoinOperator :=
      { clock := ⟨"l", "r", 0, 0, 0⟩, before := 1, after := 1 }
    refine ⟨op, ⟨.intervalJoin op, [(0, Record.newWatermark 0)], rfl⟩,
      ⟨fun key mem => (nomatch mem), fun key mem => (nomatch mem)⟩,
      [(0, Record.newWatermark 0)], not_sameOutputs (by decide)⟩

end Examples

end Weibo
