import Weibo.Lib.Complete
import Weibo.Operator.Window

/-!
# Which windows fire

A watermark fires the windows it closes and the end of the input fires all of them, in the order of
a listing. The state splits into the windows that stay and those that fire, each with the records it
holds.
-/

namespace Weibo

open List Option

open ListState (Entry Splits)

namespace WindowOperator

variable [TimeText]

def windows : Chain.Processor WindowOperator Record where
  react := process
  flush := flushRemaining
  expires op := decide (0 < op.idleTimeout)

def fireAll (op : WindowOperator) : List (Entry WindowKey Record) → Option (List Record)
  | [] => some []
  | entry :: rest => do
    let first ← op.firing entry.1 entry.2
    let later ← op.fireAll rest
    some (first ++ later)

variable {op other after : WindowOperator}

theorem firing_congr (same : op.toWindowConfig = other.toWindowConfig) (wk : WindowKey)
    (entries : List Record) : op.firing wk entries = other.firing wk entries := by
  simp only [firing, same]

theorem fireAll_congr (same : op.toWindowConfig = other.toWindowConfig)
    (fired : List (Entry WindowKey Record)) : op.fireAll fired = other.fireAll fired := by
  induction fired with
  | nil => rfl
  | cons entry rest ih => simp only [fireAll, firing_congr same, ih]

theorem fireAll_append {first second : List (Entry WindowKey Record)} {sent later : List Record}
    (fires : op.fireAll first = some sent) (goes : op.fireAll second = some later) :
    op.fireAll (first ++ second) = some (sent ++ later) := by
  induction first generalizing sent with
  | nil =>
    cases fires
    exact goes
  | cons entry rest ih =>
    obtain ⟨here, one, fires⟩ := bind_eq_some_iff.1 fires
    obtain ⟨there, more, ⟨⟩⟩ := bind_eq_some_iff.1 fires
    simp [fireAll, one, ih more]

theorem of_fireAll_append {first second : List (Entry WindowKey Record)} {sent : List Record}
    (fires : op.fireAll (first ++ second) = some sent) : ∃ here there,
    op.fireAll first = some here ∧ op.fireAll second = some there ∧ sent = here ++ there := by
  induction first generalizing sent with
  | nil => exact ⟨[], sent, rfl, fires, rfl⟩
  | cons entry rest ih =>
    obtain ⟨one, fires', fires⟩ := bind_eq_some_iff.1 fires
    obtain ⟨more, goes, ⟨⟩⟩ := bind_eq_some_iff.1 fires
    obtain ⟨here, there, first, second, rfl⟩ := ih goes
    exact ⟨one ++ here, there, by simp [fireAll, fires', first], second,
      (append_assoc _ _ _).symm⟩

variable {sends : List Record}

theorem data_of_firing {wk : WindowKey} {entries : List Record}
    (fires : op.firing wk entries = some sends) : Record.data sends = sends := by
  refine filter_eq_self.2 fun r mem => ?_
  simp only [firing] at fires
  split at fires
  · cases fires
    obtain ⟨entry, -, rfl⟩ := List.mem_map.1 mem
    rfl
  · split at fires
    · cases fires
      cases mem
    · obtain ⟨accum, -, rfl⟩ := map_eq_some_iff.1 fires
      rw [mem_singleton.1 mem]
      rfl

theorem data_of_fireAll {entries : List (Entry WindowKey Record)}
    (fires : op.fireAll entries = some sends) : Record.data sends = sends := by
  induction entries generalizing sends with
  | nil =>
    cases fires
    rfl
  | cons entry rest ih =>
    obtain ⟨first, here, fires⟩ := bind_eq_some_iff.1 fires
    obtain ⟨later, there, ⟨⟩⟩ := bind_eq_some_iff.1 fires
    rw [Record.data_append, data_of_firing here, ih there]

theorem of_fireWindow {wk : WindowKey} (fires : fireWindow wk op = .send sends after) :
    op.firing wk (op.recState.getAll wk) = some sends ∧
      after = { op with recState := op.recState.clear wk } := by
  simp only [fireWindow] at fires
  split at fires
  · cases fires
  next records result =>
    cases fires
    exact ⟨result, rfl⟩

/-- A loop over the keys in `wks` that fires those that are `due`. -/
def Firing (due : WindowKey → Bool)
    (body : WindowKey → WindowOperator → Reaction WindowOperator Record) (op : WindowOperator) :
    Prop :=
  ∀ current wk, current.toWindowConfig = op.toWindowConfig →
    current.currentWatermark = op.currentWatermark →
    body wk current = if due wk then fireWindow wk current else .send [] current

variable {taken : List (Entry WindowKey Record)} {whole : ListState WindowKey Record}

theorem forEach_splits {due : WindowKey → Bool}
    {body : WindowKey → WindowOperator →
      Reaction WindowOperator Record} (firing : Firing due body op)
    {wks : List WindowKey} (distinct : wks.Nodup) (inside : ∀ wk ∈ wks, wk ∈ op.recState.keys)
    (loops : Reaction.forEach body wks op = .send sends after)
    (splits : Splits taken whole op.recState) :
    ∃ fired, fired.keys = wks.filter due ∧ Splits (taken ++ fired) whole after.recState ∧
      op.fireAll fired = some sends ∧
      after = { op with recState := after.recState } := by
  induction wks generalizing op taken sends with
  | nil =>
    cases loops
    exact ⟨[], rfl, by simpa using splits, rfl, rfl⟩
  | cons wk rest ih =>
    obtain ⟨first, current, later, here, there, rfl⟩ := Reaction.of_andThen_eq_send loops
    rw [firing op wk rfl rfl] at here
    obtain ⟨absent, distinct⟩ := nodup_cons.1 distinct
    cases closes : due wk with rw [closes] at here
    | false =>
      cases here
      obtain ⟨fired, keys, stays, sent, kept⟩ :=
        ih firing distinct (fun wk mem => inside wk (.tail _ mem)) there splits
      exact ⟨fired, by simpa [closes] using keys, stays, by simpa using sent, kept⟩
    | true =>
      obtain ⟨result, rfl⟩ := of_fireWindow here
      have remains : ∀ other ∈ rest, other ∈ (op.recState.clear wk).keys := by
        intro other mem
        have differs : other ≠ wk := fun same => absent (same ▸ mem)
        rw [ListState.clear, AList.keys_erase]
        exact (mem_erase_of_ne differs).2 (inside other (.tail _ mem))
      have goesOn : Firing due body { op with recState := op.recState.clear wk } := firing
      obtain ⟨fired, keys, stays, sent, kept⟩ :=
        ih goesOn distinct remains there (splits.take (inside wk mem_cons_self))
      refine ⟨⟨wk, op.recState.getAll wk⟩ :: fired, ?_, ?_, ?_, kept⟩
      · have first : List.keys (⟨wk, op.recState.getAll wk⟩ :: fired) = wk :: fired.keys := rfl
        rw [first, keys, filter_cons_of_pos closes]
      · simpa using stays
      · have same : ({ op with recState := op.recState.clear wk } : WindowOperator).toWindowConfig =
          op.toWindowConfig := rfl
        rw [fireAll_congr same] at sent
        simp [fireAll, result, sent]

def due (op : WindowOperator) (watermark : Time) (wk : WindowKey) : Bool :=
  decide (wk.stop + op.allowedLateness ≤ watermark)

theorem firing_due (op : WindowOperator) (timestamp : Time) :
    Firing (op.due (max op.currentWatermark timestamp)) (fun wk op =>
      if wk.stop + op.allowedLateness > op.currentWatermark then .send [] op else fireWindow wk op)
      { op with currentWatermark := max op.currentWatermark timestamp } := by
  intro current wk config watermark
  have lateness : current.allowedLateness = op.allowedLateness :=
    congrArg WindowConfig.allowedLateness config
  simp only [due, lateness, watermark, decide_eq_true_eq]
  split
  · rw [if_neg (by omega)]
  · rw [if_pos (by omega)]

variable {choice : Nat}

theorem handleWatermark_splits {watermark : Record}
    (reacts : op.handleWatermark choice watermark = .send sends after)
    (splits : Splits taken whole op.recState) :
    ∃ fired, fired.keys.Perm (op.recState.keys.filter (op.due after.currentWatermark)) ∧
      Splits (taken ++ fired) whole after.recState ∧ op.fireAll fired = some sends ∧
      after = { op with
        recState := after.recState
        currentWatermark := max op.currentWatermark watermark.timestamp } := by
  let advanced := { op with currentWatermark := max op.currentWatermark watermark.timestamp }
  have firing : Firing (op.due advanced.currentWatermark) (fun wk op =>
      if wk.stop + op.allowedLateness > op.currentWatermark then .send [] op else fireWindow wk op)
      advanced := firing_due op watermark.timestamp
  have listed := arrange_perm choice op.recState.keys
  obtain ⟨fired, keys, stays, sent, kept⟩ := forEach_splits firing
    (listed.nodup_iff.2 op.recState.keys_nodup) (fun wk mem => listed.mem_iff.1 mem) reacts splits
  have watermark : after.currentWatermark = advanced.currentWatermark := by rw [kept]
  refine ⟨fired, ?_, stays, ?_, kept⟩
  · rw [keys, watermark]
    exact listed.filter _
  · have same : advanced.toWindowConfig = op.toWindowConfig := rfl
    rw [← sent, fireAll_congr same]

theorem flushRemaining_splits (reacts : op.flushRemaining choice = .send sends after)
    (splits : Splits taken whole op.recState) :
    ∃ fired, fired.keys.Perm op.recState.keys ∧ Splits (taken ++ fired) whole after.recState ∧
      op.fireAll fired = some sends ∧ after = { op with recState := after.recState } := by
  have firing : Firing (fun _ => true) fireWindow op := fun _ _ _ _ => rfl
  have listed := arrange_perm choice op.recState.keys
  obtain ⟨fired, keys, stays, sent, kept⟩ := forEach_splits firing
    (listed.nodup_iff.2 op.recState.keys_nodup) (fun wk mem => listed.mem_iff.1 mem) reacts splits
  exact ⟨fired, by rw [keys, filter_true]; exact listed, stays, sent, kept⟩

def Fits (assigner : WindowAssigner) (r : Record) : Prop :=
  r.timestamp.unixNano = r.timestamp ∧ ∀ win ∈ assigner.assignWindows r.timestamp,
    win.start.unixNano = win.start ∧ win.stop.unixNano = win.stop

instance (assigner : WindowAssigner) (r : Record) : Decidable (Fits assigner r) :=
  inferInstanceAs (Decidable (_ ∧ _))

inductive Round (op : WindowOperator) (r : Record) : List Record → WindowOperator → Prop
  | watermark {after : WindowOperator} {fired : List (Entry WindowKey Record)} {sends : List Record}
      (is : r.isWatermark = true)
      (keys : fired.keys.Perm (op.recState.keys.filter (op.due after.currentWatermark)))
      (splits : Splits fired op.recState after.recState) (sent : op.fireAll fired = some sends)
      (kept : after = { op with
        recState := after.recState
        currentWatermark := max op.currentWatermark r.timestamp }) : Round op r sends after
  | barrier (plain : r.isWatermark = false) (is : r.isBarrier = true) : Round op r [r] op
  | late (data : r.isMarker = false) (late : op.isTooLate r.timestamp = true) :
      Round op r [] (op.emitLate r)
  | data (choice : Nat) (data : r.isMarker = false) (onTime : op.isTooLate r.timestamp = false) :
      Round op r [] (op.handleDataRecord choice r)

theorem round_of_process {r : Record}
    (reacts : op.process choice r = .send sends after) : Round op r sends after := by
  simp only [process] at reacts
  split at reacts
  next is =>
    have whole : Splits [] op.recState op.recState := by simp [Splits]
    obtain ⟨fired, keys, splits, sent, kept⟩ := handleWatermark_splits reacts whole
    exact .watermark is keys splits sent kept
  next plain =>
    split at reacts
    next is =>
      cases reacts
      exact .barrier (by simpa using plain) is
    next unmarked =>
      have data : r.isMarker = false := by simp_all [Record.isMarker]
      split at reacts
      next late =>
        cases reacts
        exact .late data late
      next onTime =>
        cases reacts
        exact .data choice data (by simpa using onTime)

theorem Round.config {r : Record} (round : Round op r sends after) :
    after.toWindowConfig = op.toWindowConfig := by
  cases round with
  | watermark is keys splits sent kept => rw [kept]
  | barrier plain is => rfl
  | late data late =>
    simp only [emitLate]
    split <;> rfl
  | data choice data onTime => exact (handleDataRecord_keeps op choice r).1

end WindowOperator

end Weibo
