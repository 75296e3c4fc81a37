import Weibo.Lib.Reaction
import Weibo.State.Memory
import Weibo.Window.Assigner

/-!
# The window operator

`WindowOperator` buffers records per key and window, and fires a window when the watermark passes
its end plus the allowed lateness, or when the operator stops. `WindowKey` is the key here instead
of its text. Go's text form of times is the parameter `TimeText`.
-/

namespace Weibo

open Option List Bool

/-- `Time.Format` and `time.Parse` with `time.RFC3339Nano`. -/
class TimeText where
  format : Time → Bytes
  parse : Bytes → Option Time

/-- Times without a text. -/
@[reducible]
def TimeText.blank : TimeText := ⟨fun _ => [], fun _ => none⟩

structure WindowKey where
  key : Bytes
  start : Int
  stop : Int
  deriving DecidableEq

def toWindowKey (key : Bytes) (win : Window) : WindowKey :=
  ⟨key, win.start.unixNano, win.stop.unixNano⟩

def WindowKey.window (wk : WindowKey) : Window := ⟨wk.start, wk.stop⟩

/-- `ReduceFn`: the accumulator starts as nil; `none` when the function panics. -/
abbrev ReduceFn := Option Bytes → Record → Option (Option Bytes)

/-- The configuration of a `WindowOperator`, which its clones share. -/
structure WindowConfig where
  assigner : WindowAssigner
  idleTimeout : Duration := 0
  allowedLateness : Duration := 0
  lateSink : Bool := false
  reducer : Option ReduceFn := none

structure WindowOperator extends WindowConfig where
  recState : ListState WindowKey Record := ∅
  currentWatermark : Time := Time.zero
  late : List Record := []

def tagWithWindowAndLateness [TimeText] (r : Record) (win : Window) (allowed : Duration) : Record :=
  let bounded := (r.withHeader "window_start" (TimeText.format win.start)).withHeader "window_end"
    (TimeText.format win.stop)
  let tagged := if allowed > 0 then
      bounded.withHeader "window_allowed_lateness_nanos" (toString allowed).toUTF8.toList
    else bounded
  { key := r.key
    value := r.value
    timestamp := r.timestamp
    offset := r.offset
    headers := tagged.headers }

namespace WindowOperator

def isTooLate (op : WindowOperator) (ts : Time) : Bool :=
  !op.currentWatermark.isZero && decide (ts < op.currentWatermark - op.allowedLateness)

def emitLate [TimeText] (op : WindowOperator) (r : Record) : WindowOperator :=
  if op.lateSink then
    let r := r.withHeader "_late_reason"
      "event time before current watermark minus allowed lateness".toUTF8.toList
    { op with late := op.late ++ [r.withHeader "_watermark" (TimeText.format op.currentWatermark)] }
  else op

def overlapping (op : WindowOperator) (choice : Nat) (key : Bytes) (win : Window) :
    List WindowKey :=
  (arrange choice op.recState.keys).filter fun wk =>
    decide (wk.key = key ∧ win.start < wk.stop ∧ wk.start < win.stop)

def assignToWindow (op : WindowOperator) (choice : Nat) (key : Bytes) (win : Window)
    (record : Record) : WindowOperator :=
  let toRemove := if op.assigner.isSession then op.overlapping choice key win else []
  match toRemove with
  | [] => { op with recState := op.recState.append (toWindowKey key win) record }
  | _ =>
    let newStart := (toRemove.map WindowKey.start).foldl min win.start
    let newEnd := (toRemove.map WindowKey.stop).foldl max win.stop
    let mergedRecords := toRemove.flatMap op.recState.getAll
    let cleared := toRemove.foldl ListState.clear op.recState
    let mergedKey := toWindowKey key ⟨newStart, newEnd⟩
    { op with recState := cleared.appendAll mergedKey (mergedRecords ++ [record]) }

def handleDataRecord (op : WindowOperator) (choice : Nat) (record : Record) : WindowOperator :=
  (op.assigner.assignWindows record.timestamp).foldl
    (fun op win => op.assignToWindow choice record.key win record.stored) op

def reduceEntries (reducer : ReduceFn) (entries : List Record) : Option (Option Bytes) :=
  entries.foldlM reducer none

/-- What firing a window sends; `none` when its reducer panics. -/
def firing [TimeText] (op : WindowOperator) (wk : WindowKey) (entries : List Record) :
    Option (List Record) :=
  match op.reducer with
  | none => some (entries.map fun r => tagWithWindowAndLateness r wk.window op.allowedLateness)
  | some reducer =>
    match entries.getLast? with
    | none => some []
    | some last =>
      (reduceEntries reducer entries).map fun accum =>
        let result : Record :=
          { key := last.key
            value := accum.getD []
            timestamp := last.timestamp
            offset := last.offset
            headers := last.headers }
        [tagWithWindowAndLateness result wk.window op.allowedLateness]

def fireWindow [TimeText] (wk : WindowKey) (op : WindowOperator) :
    Reaction WindowOperator Record :=
  match op.firing wk (op.recState.getAll wk) with
  | none => .fail
  | some records => .send records { op with recState := op.recState.clear wk }

def handleWatermark [TimeText] (op : WindowOperator) (choice : Nat) (watermark : Record) :
    Reaction WindowOperator Record :=
  let op := { op with currentWatermark := max op.currentWatermark watermark.timestamp }
  .forEach (fun wk op =>
      if wk.stop + op.allowedLateness > op.currentWatermark then .send [] op else fireWindow wk op)
    (arrange choice op.recState.keys) op

def flushRemaining [TimeText] (op : WindowOperator) (choice : Nat) :
    Reaction WindowOperator Record :=
  .forEach fireWindow (arrange choice op.recState.keys) op

/-- One round of the loop of `Process`. -/
def process [TimeText] (op : WindowOperator) (choice : Nat) (record : Record) :
    Reaction WindowOperator Record :=
  if record.isWatermark then op.handleWatermark choice record
  else if record.isBarrier then .send [record] op
  else if op.isTooLate record.timestamp then .send [] (op.emitLate record)
  else .send [] (op.handleDataRecord choice record)

/-! ## What a round keeps -/

def Total (config : WindowConfig) : Prop :=
  ∀ reducer, config.reducer = some reducer → ∀ accum r, (reducer accum r).isSome = true

theorem reduceEntries_isSome {reducer : ReduceFn}
    (total : ∀ accum r, (reducer accum r).isSome = true)
    (entries : List Record) : (reduceEntries reducer entries).isSome = true := by
  suffices general : ∀ accum, (entries.foldlM reducer accum).isSome = true from general none
  induction entries with
  | nil => exact fun _ => rfl
  | cons r rest ih =>
    intro accum
    obtain ⟨next, step⟩ := isSome_iff_exists.1 (total accum r)
    simpa [foldlM_cons, step] using ih next

variable [TimeText]

variable {op : WindowOperator}

theorem firing_data (total : Total op.toWindowConfig) (wk : WindowKey) (entries : List Record) :
    ∃ records, op.firing wk entries = some records ∧ ∀ r ∈ records, r.isMarker = false := by
  simp only [firing]
  cases configured : op.reducer with
  | none =>
    refine ⟨_, rfl, fun r mem => ?_⟩
    obtain ⟨entry, -, rfl⟩ := List.mem_map.1 mem
    rfl
  | some reducer =>
    cases entries.getLast? with
    | none => exact ⟨[], rfl, by simp⟩
    | some last =>
      obtain ⟨accum, folds⟩ := isSome_iff_exists.1
        (reduceEntries_isSome (total reducer configured) entries)
      refine ⟨_, by simp only [folds, map_some]; rfl, fun r mem => ?_⟩
      obtain rfl := mem_singleton.1 mem
      rfl

theorem fireWindow_meets (total : Total op.toWindowConfig) (wk : WindowKey) :
    (fireWindow wk op).Meets (fun r => r.isMarker = false) fun after =>
      after.toWindowConfig = op.toWindowConfig ∧ after.currentWatermark = op.currentWatermark := by
  obtain ⟨records, fires, data⟩ := firing_data total wk (op.recState.getAll wk)
  simp only [fireWindow, fires]
  exact Reaction.meets_send data ⟨rfl, rfl⟩

theorem forEach_meets {body : WindowKey → WindowOperator → Reaction WindowOperator Record}
    (op : WindowOperator) (total : Total op.toWindowConfig) (wks : List WindowKey)
    (fires : ∀ wk op, body wk op = .send [] op ∨ body wk op = fireWindow wk op) :
    (Reaction.forEach body wks op).Meets (fun r => r.isMarker = false) fun after =>
      after.toWindowConfig = op.toWindowConfig := by
  refine Reaction.meets_forEach rfl fun wk _ current same => ?_
  rcases fires wk current with idle | fired
  · rw [idle]
    exact Reaction.meets_send (by simp) same
  · rw [fired]
    obtain ⟨sends, after, next, kept, -⟩ := fireWindow_meets (same ▸ total) wk
    exact ⟨sends, after, next, kept.trans same⟩

theorem handleWatermark_meets (total : Total op.toWindowConfig) (choice : Nat)
    (watermark : Record) :
    (op.handleWatermark choice watermark).Meets (fun r => r.isMarker = false) fun after =>
      after.toWindowConfig = op.toWindowConfig := by
  refine forEach_meets
    { op with currentWatermark := max op.currentWatermark watermark.timestamp } total _
    fun wk op => ?_
  split
  · exact .inl rfl
  · exact .inr rfl

theorem flushRemaining_meets (total : Total op.toWindowConfig) (choice : Nat) :
    (op.flushRemaining choice).Meets (fun r => r.isMarker = false) fun after =>
      after.toWindowConfig = op.toWindowConfig :=
  forEach_meets op total _ fun _ _ => .inr rfl

omit [TimeText] in
theorem assignToWindow_keeps (op : WindowOperator) (choice : Nat) (key : Bytes) (win : Window)
    (record : Record) :
      (op.assignToWindow choice key win record).toWindowConfig = op.toWindowConfig ∧
      (op.assignToWindow choice key win record).currentWatermark = op.currentWatermark := by
  simp only [assignToWindow]
  split <;> exact ⟨rfl, rfl⟩

omit [TimeText] in
theorem handleDataRecord_keeps (op : WindowOperator) (choice : Nat) (record : Record) :
    (op.handleDataRecord choice record).toWindowConfig = op.toWindowConfig ∧
      (op.handleDataRecord choice record).currentWatermark = op.currentWatermark := by
  refine foldlRecOn (motive := fun after : WindowOperator =>
    after.toWindowConfig = op.toWindowConfig ∧ after.currentWatermark = op.currentWatermark)
    _ _ ⟨rfl, rfl⟩ fun current kept win _ => ?_
  obtain ⟨config, watermark⟩ := current.assignToWindow_keeps choice record.key win record.stored
  exact ⟨config.trans kept.1, watermark.trans kept.2⟩

theorem process_data (choice : Nat) {record : Record} (data : record.isMarker = false) :
    (op.process choice record).sends = [] ∧ ∃ after, (op.process choice record).next = some after ∧
      after.toWindowConfig = op.toWindowConfig := by
  simp only [Record.isMarker, or_eq_false_iff] at data
  simp only [process, data.1, data.2, false_eq_true, if_false]
  split
  · refine ⟨rfl, _, rfl, ?_⟩
    simp only [emitLate]
    split <;> rfl
  · exact ⟨rfl, _, rfl, (op.handleDataRecord_keeps choice record).1⟩

theorem process_marker (total : Total op.toWindowConfig) (choice : Nat)
    {record : Record} (marker : record.isMarker = true) :
    (op.process choice record).sends.filter Record.isMarker =
      (if record.isWatermark then [] else [record]) ∧
      ∃ after, (op.process choice record).next = some after ∧
        after.toWindowConfig = op.toWindowConfig := by
  simp only [process]
  cases watermark : record.isWatermark with
  | true =>
    obtain ⟨sends, after, next, same⟩ := op.handleWatermark_meets total choice record
    exact ⟨by simpa [filter_eq_nil_iff] using sends, after, by simpa using next, same⟩
  | false =>
    have barrier : record.isBarrier = true := by simpa [Record.isMarker, watermark] using marker
    simp [barrier, Reaction.send, marker]

end WindowOperator

end Weibo
