import Mathlib.Data.List.Forall2
import Weibo.Operator.Sessions

/-!
# Every record in its windows, once

A run of a window operator without a reducer emits every record that was not late when it arrived
once for each of its windows, and nothing else. A window that a watermark has fired is never opened
again.
-/

namespace Weibo

open List Function

open Chain (Ends Runs)
open ListState (Entry Splits)
open Record (data_append isMarker newWatermark)

namespace WindowOperator

def advance (watermark : Time) (r : Record) : Time :=
  if r.isWatermark then max watermark r.timestamp else watermark

def arrivals (watermark : Time) : List Record → List (Time × Record)
  | [] => []
  | r :: rest =>
    (if r.isMarker then [] else [(watermark, r)]) ++ arrivals (advance watermark r) rest

def overdue (config : WindowConfig) (arrival : Time × Record) : Bool :=
  !arrival.1.isZero && decide (arrival.2.timestamp < arrival.1 - config.allowedLateness)

def accepted (config : WindowConfig) (watermark : Time) (input : List Record) : List Record :=
  ((arrivals watermark input).filter fun arrival => !overdue config arrival).map Prod.snd

def lateArrivals (config : WindowConfig) (watermark : Time) (input : List Record) :
    List (Time × Record) :=
  (arrivals watermark input).filter (overdue config)

section Runs

variable [TimeText]

def lateRecord (arrival : Time × Record) : Record :=
  (arrival.2.withHeader "_late_reason"
    "event time before current watermark minus allowed lateness".toUTF8.toList).withHeader
      "_watermark" (TimeText.format arrival.1)

def emission (config : WindowConfig) (held : WindowKey × Record) : Record :=
  tagWithWindowAndLateness held.2 held.1.window config.allowedLateness

variable {op after q : WindowOperator} {input sent : List Record}

theorem fireAll_records (plain : op.reducer = none) (fired : List (Entry WindowKey Record)) :
    op.fireAll fired = some ((fired.flatMap fun entry => entry.2.map (Prod.mk entry.1)).map
      (emission op.toWindowConfig)) := by
  induction fired with
  | nil => rfl
  | cons entry rest ih =>
    have first : op.firing entry.1 entry.2 = some ((entry.2.map (Prod.mk entry.1)).map
        (emission op.toWindowConfig)) := by
      simp only [firing, plain, map_map]
      rfl
    simp [fireAll, first, ih]

theorem data_emission (config : WindowConfig) (held : List (WindowKey × Record)) :
    Record.data (held.map (emission config)) = held.map (emission config) := by
  refine filter_eq_self.2 fun r mem => ?_
  obtain ⟨pair, -, rfl⟩ := mem_map.1 mem
  rfl

variable {r : Record} {sends : List Record}

theorem Round.currentWatermark (round : Round op r sends after) :
    after.currentWatermark = advance op.currentWatermark r := by
  cases round with
  | watermark is keys splits sent kept => rw [kept, advance, if_pos is]
  | barrier plain is => simp [advance, plain]
  | late data late =>
    have plain : r.isWatermark = false := by simp_all [isMarker]
    simp only [emitLate, advance, plain, Bool.false_eq_true, if_false]
    split <;> rfl
  | data choice data onTime =>
    have plain : r.isWatermark = false := by simp_all [isMarker]
    rw [(handleDataRecord_keeps op choice r).2]
    simp [advance, plain]

/-! ## Where the records are -/

section Account

variable {β : Type} {config : WindowConfig} (good : WindowKey × Record → Prop)
  (inv : WindowOperator → Prop) (view : WindowKey × Record → β) (added : Record → List β)
  (plain : config.reducer = none)
  (holds : ∀ op : WindowOperator, inv op → ∀ held ∈ op.recState.pairs, good held)
  (adds : ∀ (op : WindowOperator) (choice : Nat) (r : Record), op.toWindowConfig = config →
    r.isMarker = false → ((op.handleDataRecord choice r).recState.pairs.map view).Perm
      (op.recState.pairs.map view ++ added r))

include plain holds adds in
theorem round_account (configured : op.toWindowConfig = config) (initial : inv op) {r : Record}
    {sends : List Record} (round : Round op r sends after) :
    ∃ fired : List (WindowKey × Record), Record.data sends = fired.map (emission config) ∧
      (∀ held ∈ fired, good held) ∧
      ((fired ++ after.recState.pairs).map view).Perm (op.recState.pairs.map view ++
        (accepted config op.currentWatermark [r]).flatMap added) := by
  cases round with
  | @watermark after entries sends is keys splits sent kept =>
    have marker : r.isMarker = true := by simp [isMarker, is]
    let fired := entries.flatMap fun entry => entry.2.map (Prod.mk entry.1)
    have moved : op.recState.pairs.Perm (after.recState.pairs ++ fired) := splits.pairs
    rw [fireAll_records (configured ▸ plain), configured] at sent
    cases sent
    refine ⟨fired, data_emission config fired, fun held mem => ?_, ?_⟩
    · exact holds op initial held (moved.mem_iff.2 (mem_append_right _ mem))
    · have gained : accepted config op.currentWatermark [r] = [] := by
        simp [accepted, arrivals, marker]
      rw [gained, flatMap_nil, append_nil]
      exact (perm_append_comm.trans moved.symm).map view
  | barrier plain is =>
    have marker : r.isMarker = true := by simp [isMarker, is]
    have gained : accepted config op.currentWatermark [r] = [] := by
      simp [accepted, arrivals, marker]
    exact ⟨[], Record.data_singleton_marker marker, by simp, by simp [gained]⟩
  | late data late =>
    have gained : accepted config op.currentWatermark [r] = [] := by
      have behind : overdue config (op.currentWatermark, r) = true := by
        rw [← configured]
        exact late
      simp [accepted, arrivals, data, behind]
    have kept : (op.emitLate r).recState = op.recState := by
      simp only [emitLate]
      split <;> rfl
    exact ⟨[], rfl, by simp, by simp [gained, kept]⟩
  | data choice data onTime =>
    have gained : accepted config op.currentWatermark [r] = [r] := by
      have inTime : overdue config (op.currentWatermark, r) = false := by
        rw [← configured]
        exact onTime
      simp [accepted, arrivals, data, inTime]
    exact ⟨[], rfl, by simp, by simpa [gained] using adds op choice r configured data⟩

include plain holds adds in
theorem runs_account
    (keeps : ∀ (op after : WindowOperator) (r : Record) (sends : List Record), r ∈ input →
      op.toWindowConfig = config → inv op → Round op r sends after → inv after)
    (configured : op.toWindowConfig = config) (initial : inv op)
      (runs : Runs windows op input sent q) :
    q.toWindowConfig = config ∧ inv q ∧ ∃ fired : List (WindowKey × Record),
      Record.data sent = fired.map (emission config) ∧ (∀ held ∈ fired, good held) ∧
      ((fired ++ q.recState.pairs).map view).Perm (op.recState.pairs.map view ++
        (accepted config op.currentWatermark input).flatMap added) := by
  induction runs with
  | nil p => exact ⟨configured, initial, [], rfl, by simp, by simp [accepted, arrivals]⟩
  | @cons p m q r rest sends output choice reacts _ ih =>
    have round := round_of_process reacts
    obtain ⟨first, emitted, given, perm⟩ :=
      round_account good inv view added plain holds adds configured initial round
    obtain ⟨config', inv', later, emitted', all, perm'⟩ := ih
      (fun op after r sends mem => keeps op after r sends (.tail _ mem))
      (round.config.trans configured) (keeps p m r sends mem_cons_self configured initial round)
    have split : accepted config p.currentWatermark (r :: rest) =
        accepted config p.currentWatermark [r] ++ accepted config m.currentWatermark rest := by
      rw [round.currentWatermark]
      simp [accepted, arrivals]
    refine ⟨config', inv', first ++ later, ?_, fun held mem => ?_, ?_⟩
    · rw [data_append, emitted, emitted', map_append]
    · exact (mem_append.1 mem).elim (given held) (all held)
    · rw [split, flatMap_append, ← append_assoc, append_assoc first,
        map_append]
      rw [map_append] at perm
      refine (perm'.append_left _).trans ?_
      rw [← append_assoc]
      exact perm.append_right _

end Account

omit [TimeText] in
theorem handleDataRecord_pairs (fixed : op.assigner.isSession = false) (choice : Nat) (r : Record) :
    (op.handleDataRecord choice r).recState.pairs.Perm (op.recState.pairs ++
      (op.assigner.assignWindows r.timestamp).map fun win =>
        (toWindowKey r.key win, r.stored)) := by
  rw [handleDataRecord]
  generalize op.assigner.assignWindows r.timestamp = wins
  induction wins generalizing op with
  | nil => simp
  | cons win wins ih =>
    have assigned : op.assignToWindow choice r.key win r.stored =
        { op with recState := op.recState.append (toWindowKey r.key win) r.stored } := by
      simp [assignToWindow, fixed]
    have same : ({ op with recState := op.recState.append (toWindowKey r.key win) r.stored } :
        WindowOperator).assigner.isSession = false := fixed
    rw [foldl_cons, assigned, map_cons]
    refine (ih same).trans (((op.recState.pairs_append _ _).append_right _).trans ?_)
    simp

omit [TimeText] in
theorem handleDataRecord_records {gap : Duration} (assigner : op.assigner = .session ⟨gap⟩)
    (choice : Nat) (r : Record) : ((op.handleDataRecord choice r).recState.pairs.map Prod.snd).Perm
      (op.recState.pairs.map Prod.snd ++ [r.stored]) := by
  have session : op.assigner.isSession = true := by
    rw [assigner]
    rfl
  have windows : op.assigner.assignWindows r.timestamp = [⟨r.timestamp, r.timestamp + gap⟩] := by
    rw [assigner]
    rfl
  simp only [handleDataRecord, windows, foldl_cons, foldl_nil]
  rw [assignToWindow_session session]
  let found := op.overlapping choice r.key ⟨r.timestamp, r.timestamp + gap⟩
  have distinct : found.Nodup :=
    ((arrange_perm choice op.recState.keys).nodup_iff.2 op.recState.keys_nodup).filter _
  have cleared := (op.recState.pairs_clearAll distinct).map Prod.snd
  have merged : (found.flatMap fun key => (op.recState.getAll key).map (Prod.mk key)).map Prod.snd =
      found.flatMap op.recState.getAll := by
    rw [map_flatMap]
    exact flatMap_congr fun key _ => by simp [comp_def]
  rw [map_append, merged] at cleared
  refine ((ListState.pairs_appendAll _ _ _).map Prod.snd).trans ?_
  rw [map_append, map_map, show (Prod.snd ∘ Prod.mk _ : Record → Record) = id from rfl,
    map_id, ← append_assoc]
  exact (cleared.symm.append_right _)

/-! ## Windows that have fired -/

def Stamped (state : ListState WindowKey Record) : Prop :=
  ∀ wk ∈ state.keys, Time.unixNano wk.stop = wk.stop

/-- The windows of a record stop after it. -/
def Ahead (assigner : WindowAssigner) (r : Record) : Prop :=
  ∀ win ∈ assigner.assignWindows r.timestamp, r.timestamp < win.stop.unixNano

instance (assigner : WindowAssigner) (r : Record) : Decidable (Ahead assigner r) :=
  inferInstanceAs (Decidable (∀ win ∈ _, _))

omit [TimeText] in
theorem ahead_of_fits {assigner : WindowAssigner} (proper : assigner.Proper)
    (fits : Fits assigner r) : Ahead assigner r := by
  intro win mem
  rw [(fits.2 win mem).2]
  exact WindowAssigner.lt_stop_of_mem proper fits.1 mem

omit [TimeText] in
theorem unixNano_unixNano (t : Time) : Time.unixNano t.unixNano = t.unixNano :=
  Int.bmod_bmod

variable {wk : WindowKey}

omit [TimeText] in
theorem assignToWindow_keys {choice : Nat} {key : Bytes} {win : Window} {record : Record}
    (mem : wk ∈ (op.assignToWindow choice key win record).recState.keys) :
    wk ∈ op.recState.keys ∨ ∃ start stop : Time, wk = toWindowKey key ⟨start, stop⟩ ∧
      (stop = win.stop ∨ op.assigner.isSession = true ∧
        ∃ other ∈ op.overlapping choice key win, stop = other.stop) := by
  cases session : op.assigner.isSession with
  | false =>
    have assigned : (op.assignToWindow choice key win record).recState =
        op.recState.append (toWindowKey key win) record := by
      simp [assignToWindow, session]
    rw [assigned, ListState.mem_keys_append] at mem
    rcases mem with rfl | old
    · exact .inr ⟨win.start, win.stop, rfl, .inl rfl⟩
    · exact .inl old
  | true =>
    rw [assignToWindow_session session, ListState.mem_keys_appendAll, ListState.mem_keys_clearAll]
      at mem
    rcases mem with ⟨rfl, -⟩ | ⟨-, old⟩
    · refine .inr ⟨_, _, rfl, ?_⟩
      refine foldlRecOn (motive := fun stop : Int => stop = win.stop ∨ true = true ∧
        ∃ other ∈ op.overlapping choice key win, stop = other.stop) _ _ (.inl rfl)
        fun stop found b inside => ?_
      rcases max_choice stop b with left | right
      · rw [left]
        exact found
      · obtain ⟨other, listed, rfl⟩ := mem_map.1 inside
        exact .inr ⟨rfl, other, listed, right⟩
    · exact .inl old

omit [TimeText] in
theorem Stamped.assign (stamped : Stamped op.recState) (choice : Nat) (key : Bytes) (win : Window)
    (record : Record) : Stamped (op.assignToWindow choice key win record).recState := by
  intro wk mem
  rcases assignToWindow_keys mem with old | ⟨start, stop, rfl, -⟩
  · exact stamped wk old
  · exact unixNano_unixNano stop

omit [TimeText] in
theorem handleDataRecord_keys (stamped : Stamped op.recState) (choice : Nat)
    (ahead : Ahead op.assigner r) :
    Stamped (op.handleDataRecord choice r).recState ∧
      ∀ wk ∈ (op.handleDataRecord choice r).recState.keys,
        wk ∈ op.recState.keys ∨ r.timestamp < wk.stop := by
  refine (foldlRecOn (motive := fun after : WindowOperator =>
    after.toWindowConfig = op.toWindowConfig ∧ Stamped after.recState ∧
    ∀ wk ∈ after.recState.keys, wk ∈ op.recState.keys ∨ r.timestamp < wk.stop) _ _
    ⟨rfl, stamped, fun wk mem => .inl mem⟩ fun current kept win mem => ?_).2
  obtain ⟨config, stamped, keys⟩ := kept
  refine ⟨(current.assignToWindow_keeps choice r.key win r.stored).1.trans config,
    stamped.assign choice r.key win r.stored, fun wk inside => ?_⟩
  rcases assignToWindow_keys inside with old | ⟨start, stop, rfl, rfl | ⟨session, other, met, rfl⟩⟩
  · exact keys wk old
  · exact .inr (ahead win mem)
  · -- a session that the record meets ends after it
    have begins : win.start = r.timestamp := by
      rw [config] at session
      cases assigner : op.assigner with
      | session s =>
        rw [assigner] at mem
        rw [mem_singleton.1 mem]
      | tumbling t | sliding s => simp [assigner, WindowAssigner.isSession] at session
    obtain ⟨listed, -, meets, -⟩ := mem_overlapping.1 met
    have own : Time.unixNano other.stop = other.stop := stamped other listed
    refine .inr ?_
    rw [← begins]
    exact meets.trans_eq own.symm

structure Closed (wk : WindowKey) (op : WindowOperator) : Prop where
  stamped : Stamped op.recState
  passed : wk.stop + op.allowedLateness ≤ op.currentWatermark
  started : Time.zero < op.currentWatermark
  absent : wk ∉ op.recState.keys

theorem Closed.round (closed : Closed wk op) (ahead : r.isMarker = false → Ahead op.assigner r)
    (round : Round op r sends after) : Closed wk after := by
  obtain ⟨stamped, passed, started, absent⟩ := closed
  cases round with
  | watermark is keys splits sent kept =>
    have later : op.currentWatermark ≤ after.currentWatermark := by
      rw [kept]
      exact Int.le_max_left _ _
    have same : after.allowedLateness = op.allowedLateness := by rw [kept]
    refine ⟨fun other mem => stamped other (splits.mem_keys mem), ?_,
      Int.lt_of_lt_of_le started later,
      fun mem => absent (splits.mem_keys mem)⟩
    rw [same]
    exact Int.le_trans passed later
  | barrier plain is => exact ⟨stamped, passed, started, absent⟩
  | late data late =>
    simp only [emitLate]
    split <;> exact ⟨stamped, passed, started, absent⟩
  | data choice data onTime =>
    obtain ⟨stamped', opened⟩ := handleDataRecord_keys stamped choice (ahead data)
    obtain ⟨config, watermark⟩ := handleDataRecord_keeps op choice r
    refine ⟨stamped', ?_, watermark ▸ started, fun mem => ?_⟩
    · rw [watermark, config]
      exact passed
    · rcases opened wk mem with old | new
      · exact absent old
      · -- an accepted record is not older than the watermark less the lateness
        have running : op.currentWatermark.isZero = false := by
          simpa [Time.isZero] using ne_of_gt started
        have recent : ¬r.timestamp < op.currentWatermark - op.allowedLateness := by
          simpa [isTooLate, running] using onTime
        have ahead : wk.stop ≤ op.currentWatermark - op.allowedLateness :=
          Int.le_sub_right_of_add_le passed
        exact recent (Int.lt_of_lt_of_le new ahead)

theorem Stamped.runs (stamped : Stamped op.recState)
    (ahead : ∀ r ∈ input, r.isMarker = false → Ahead op.assigner r) (runs :
    Runs windows op input sent q) : Stamped q.recState ∧ q.toWindowConfig = op.toWindowConfig := by
  induction runs with
  | nil p => exact ⟨stamped, rfl⟩
  | @cons p m q r rest sends output choice reacts _ ih =>
    have round := round_of_process reacts
    have config := round.config
    have here : Stamped m.recState := by
      cases round with
      | watermark is keys splits sent kept => exact fun wk mem => stamped wk (splits.mem_keys mem)
      | barrier plain is => exact stamped
      | late data late =>
        simp only [emitLate]
        split <;> exact stamped
      | data choice data onTime =>
        exact (handleDataRecord_keys stamped choice (ahead r mem_cons_self data)).1
    obtain ⟨there, same⟩ := ih here (fun r mem => config ▸ ahead r (.tail _ mem))
    exact ⟨there, same.trans config⟩

theorem closed_of_fired (stamped : Stamped op.recState) (lateness : 0 ≤ op.allowedLateness)
    {wm : Record} (watermark : wm.isWatermark = true) (round : Round op wm sends after)
    (before : wk ∈ op.recState.keys) (gone : wk ∉ after.recState.keys) : Closed wk after := by
  cases round with
  | @watermark after fired sends is keys splits sent kept =>
    have taken : wk ∈ fired.keys := by
      have either := splits.keys.mem_iff.1 before
      exact (mem_append.1 either).resolve_left gone
    have due : op.due after.currentWatermark wk = true := (mem_filter.1 (keys.mem_iff.1 taken)).2
    have passed : wk.stop + op.allowedLateness ≤ after.currentWatermark := of_decide_eq_true due
    have same : after.allowedLateness = op.allowedLateness := by rw [kept]
    refine ⟨fun other mem => stamped other (splits.mem_keys mem), same ▸ passed, ?_, gone⟩
    have late : Time.zero < wk.stop := by
      rw [← stamped wk before]
      exact Time.zero_lt_unixNano wk.stop
    exact Int.lt_of_lt_of_le late (Int.le_trans (Int.le_add_of_nonneg_right lateness) passed)
  | barrier plain is => simp [plain] at watermark
  | late data late | data choice data onTime => simp [isMarker, watermark] at data

theorem Closed.runs (closed : Closed wk op) (ahead : ∀ r ∈ input, r.isMarker = false →
    Ahead op.assigner r) (runs : Runs windows op input sent q) : wk ∉ q.recState.keys := by
  induction runs with
  | nil p => exact closed.absent
  | @cons p m q r rest sends output choice reacts _ ih =>
    have round := round_of_process reacts
    have config := round.config
    exact ih (closed.round (ahead r mem_cons_self) round)
      fun r mem => config ▸ ahead r (.tail _ mem)

/-! ## Runs to the end of the input -/

theorem runs_late (runs : Runs windows op input sent q) : q.late = op.late ++ if op.lateSink then
      (lateArrivals op.toWindowConfig op.currentWatermark input).map lateRecord else [] := by
  induction runs with
  | nil p => simp [lateArrivals, arrivals]
  | @cons p m q r rest sends output choice reacts _ ih =>
    have round := round_of_process reacts
    have config := round.config
    have split : lateArrivals p.toWindowConfig p.currentWatermark (r :: rest) =
        lateArrivals p.toWindowConfig p.currentWatermark [r] ++
          lateArrivals p.toWindowConfig m.currentWatermark rest := by
      rw [round.currentWatermark]
      simp [lateArrivals, arrivals]
    have here : m.late = p.late ++ if p.lateSink then
        (lateArrivals p.toWindowConfig p.currentWatermark [r]).map lateRecord else [] := by
      cases round with
      | watermark is keys splits sent kept =>
        rw [kept]
        simp [lateArrivals, arrivals, isMarker, is]
      | barrier plain is => simp [lateArrivals, arrivals, isMarker, is]
      | late data late =>
        have behind : overdue p.toWindowConfig (p.currentWatermark, r) = true := late
        cases side : p.lateSink <;>
          simp [emitLate, lateArrivals, arrivals, data, behind, side, lateRecord]
      | data choice data onTime =>
        have inTime : overdue p.toWindowConfig (p.currentWatermark, r) = false := onTime
        have same : (p.handleDataRecord choice r).late = p.late := by
          refine foldlRecOn (motive := fun after : WindowOperator => after.late = p.late) _ _ rfl
            fun current kept win _ => ?_
          simp only [assignToWindow]
          split <;> exact kept
        simp [same, lateArrivals, arrivals, data, inTime]
    rw [ih, here, config, split]
    cases p.lateSink <;> simp

theorem exists_ends (plain : op.reducer = none) (input : List Record) :
    ∃ output, Ends windows (fun _ => True) op input output := by
  have total : ∀ op : WindowOperator, op.reducer = none → Total op.toWindowConfig :=
    fun op plain reducer configured => by simp [plain] at configured
  suffices general : ∃ sent q, Runs windows op input sent q ∧ q.reducer = none by
    obtain ⟨sent, q, runs, still⟩ := general
    obtain ⟨-, last, next, -⟩ := q.flushRemaining_meets (total q still) 0
    exact ⟨_, sent, q, 0, _, last, runs, trivial, Reaction.eq_send next, rfl⟩
  induction input generalizing op with
  | nil => exact ⟨[], op, .nil op, plain⟩
  | cons r rest ih =>
    have goes : ∃ after, (op.process 0 r).next = some after ∧
        after.toWindowConfig = op.toWindowConfig := by
      cases kind : r.isMarker with
      | false => exact (op.process_data 0 kind).2
      | true => exact (op.process_marker (total op plain) 0 kind).2
    obtain ⟨after, next, config⟩ := goes
    obtain ⟨sent, q, runs, still⟩ := ih (show after.reducer = none by rw [config]; exact plain)
    exact ⟨_, q, .cons 0 (Reaction.eq_send next) runs, still⟩

/-- Records in the windows they are emitted for: once in each assigned window, or for sessions
once in a window around their time. -/
def Placed (assigner : WindowAssigner) (records : List Record) (placed : List (Window × Record)) :
    Prop :=
  if assigner.isSession then
    (placed.map Prod.snd).Perm records ∧
      ∀ p ∈ placed, p.1.start ≤ p.2.timestamp ∧ p.2.timestamp < p.1.stop
  else placed.Perm (records.flatMap fun r =>
    (assigner.assignWindows r.timestamp).map fun win => (win, r))

theorem flush_account (plain : q.reducer = none) {choice : Nat} {flushed : List Record}
    {last : WindowOperator} (flushes : q.flushRemaining choice = .send flushed last) :
    ∃ held : List (WindowKey × Record), flushed = held.map (emission q.toWindowConfig) ∧
      held.Perm q.recState.pairs := by
  have whole : Splits [] q.recState q.recState := by simp [Splits]
  obtain ⟨fired, keys, splits, sent, -⟩ := flushRemaining_splits flushes whole
  rw [fireAll_records plain] at sent
  rw [nil_append] at splits
  have nothing : last.recState.entries = [] := splits.rest_nil keys
  have moved := splits.pairs
  have empty : last.recState.pairs = [] := by rw [ListState.pairs, nothing, flatMap_nil]
  rw [empty, nil_append] at moved
  exact ⟨_, (Option.some.inj sent).symm, moved.symm⟩

theorem tag_stored (fits : r.timestamp.unixNano = r.timestamp) (win : Window) (allowed : Duration) :
    tagWithWindowAndLateness r.stored win allowed = tagWithWindowAndLateness r win allowed := by
  simp only [tagWithWindowAndLateness, Record.stored, Record.withHeader, fits]
  split <;> rfl

variable {config : WindowConfig}

omit [TimeText] in
theorem mem_of_accepted {watermark : Time}
    (mem : r ∈ accepted config watermark input) : r ∈ input ∧ r.isMarker = false := by
  obtain ⟨arrival, inside, rfl⟩ := mem_map.1 mem
  have arrived := (mem_filter.1 inside).1
  clear inside mem
  induction input generalizing watermark with
  | nil => cases arrived
  | cons q rest ih =>
    rcases mem_append.1 arrived with here | later
    · split at here
      · cases here
      next data =>
        obtain rfl := mem_singleton.1 here
        exact ⟨mem_cons_self, by simpa using data⟩
    · obtain ⟨there, data⟩ := ih later
      exact ⟨.tail _ there, data⟩

theorem exists_placed {all : List (WindowKey × Record)}
    {records : List Record} (fits : ∀ r ∈ records, r.timestamp.unixNano = r.timestamp)
    (inside : ∀ held ∈ all, held.1.covers held.2 = true)
    (perm : (all.map Prod.snd).Perm (records.map Record.stored)) :
    ∃ placed : List (Window × Record), (placed.map Prod.snd).Perm records ∧
      (∀ p ∈ placed, p.1.start ≤ p.2.timestamp ∧ p.2.timestamp < p.1.stop) ∧
        all.map (emission config) =
        placed.map fun p => tagWithWindowAndLateness p.2 p.1 config.allowedLateness := by
  have stored :
    Forall₂ (fun (s : Record) r => s = r.stored) (records.map Record.stored) records := by
    rw [forall₂_map_left_iff]
    exact forall₂_same.2 fun r _ => rfl
  obtain ⟨ordered, matched, same⟩ := perm_comp_forall₂ perm stored
  rw [forall₂_map_left_iff] at matched
  have known : ∀ r ∈ ordered, r.timestamp.unixNano = r.timestamp := fun r mem =>
    fits r (same.mem_iff.1 mem)
  suffices general : ∃ placed : List (Window × Record), placed.map Prod.snd = ordered ∧
      (∀ p ∈ placed, p.1.start ≤ p.2.timestamp ∧ p.2.timestamp < p.1.stop) ∧
      all.map (emission config) =
        placed.map fun p => tagWithWindowAndLateness p.2 p.1 config.allowedLateness by
    obtain ⟨placed, records, covered, emitted⟩ := general
    exact ⟨placed, records ▸ same, covered, emitted⟩
  clear same perm
  induction matched with
  | nil => exact ⟨[], rfl, by simp, rfl⟩
  | @cons held r all ordered here _ ih =>
    obtain ⟨placed, records, covered, emitted⟩ := ih (fun held mem => inside held (.tail _ mem))
      fun r mem => known r (.tail _ mem)
    have own := known r mem_cons_self
    refine ⟨(held.1.window, r) :: placed, by rw [map_cons, records], ?_, ?_⟩
    · intro p mem
      rcases mem_cons.1 mem with rfl | later
      · have covers := of_decide_eq_true (inside held mem_cons_self)
        rw [here] at covers
        have time : r.stored.timestamp = r.timestamp := own
        rw [time] at covers
        exact covers
      · exact covered p later
    · rw [map_cons, map_cons, emitted, emission, here, tag_stored own]

/-- Each accepted record comes out once for each of its windows. -/
structure ExactlyOnce (config : WindowConfig) (input : List Record) : Prop where
  returns : ∃ output, Ends windows (fun _ => True) { toWindowConfig := config } input output
  emits : ∀ output, Ends windows (fun _ => True) { toWindowConfig := config } input output →
    ∃ placed, Placed config.assigner (accepted config Time.zero input) placed ∧
      (Record.data output).Perm (placed.map fun p =>
        tagWithWindowAndLateness p.2 p.1 config.allowedLateness)
  distinct : ∀ r ∈ input, (config.assigner.assignWindows r.timestamp).Nodup
  sides : ∀ sent q, Runs windows { toWindowConfig := config } input sent q →
    q.late = if config.lateSink then (lateArrivals config Time.zero input).map lateRecord else []
  closes : ∀ front wm middle rest sent fired later p q z, input = front ++ wm :: (middle ++ rest) →
    Runs windows { toWindowConfig := config } front sent p → wm.isWatermark = true →
    Runs windows p [wm] fired q → Runs windows q middle later z →
    ∀ wk ∈ p.recState.keys, wk ∉ q.recState.keys → wk ∉ z.recState.keys

theorem emits_fixed (plain : config.reducer = none) (fixed : config.assigner.isSession = false)
    (fits : ∀ r ∈ input, r.isMarker = false → Fits config.assigner r) {output : List Record}
    (ends : Ends windows (fun _ => True) { toWindowConfig := config } input output) :
    (Record.data output).Perm (((accepted config Time.zero input).flatMap fun r =>
      (config.assigner.assignWindows r.timestamp).map fun win => (win, r)).map fun p =>
        tagWithWindowAndLateness p.2 p.1 config.allowedLateness) := by
  obtain ⟨ran, q, choice, flushed, last, runs, -, flush, rfl⟩ := ends
  obtain ⟨same, -, fired, emitted, -, perm⟩ := runs_account (fun _ => True)
    (fun _ => True) (fun held => held) (fun r =>
      (config.assigner.assignWindows r.timestamp).map fun win => (toWindowKey r.key win, r.stored))
    plain (fun _ _ _ _ => trivial) (fun op choice r configured data => by
      have listed := handleDataRecord_pairs (configured ▸ fixed) choice r
      rw [show op.assigner = config.assigner from congrArg (·.assigner) configured] at listed
      simpa using listed)
    (fun _ _ _ _ _ _ _ _ => trivial) rfl trivial runs
  obtain ⟨held, rfl, rest⟩ := flush_account (same ▸ plain) flush
  have all : (fired ++ held).Perm ((accepted config Time.zero input).flatMap fun r =>
      (config.assigner.assignWindows r.timestamp).map fun win =>
        (toWindowKey r.key win, r.stored)) := by
    rw [map_id'] at perm
    exact (rest.append_left fired).trans perm
  rw [data_append, emitted, same, data_emission, ← map_append]
  refine (all.map (emission config)).trans (Perm.of_eq ?_)
  rw [map_flatMap, map_flatMap]
  refine flatMap_congr fun r mem => ?_
  obtain ⟨inside, data⟩ := mem_of_accepted mem
  obtain ⟨own, bounds⟩ := fits r inside data
  rw [map_map, map_map]
  refine map_congr_left fun win assigned => ?_
  have window : (toWindowKey r.key win).window = win := by
    simp [toWindowKey, WindowKey.window, (bounds win assigned).1, (bounds win assigned).2]
  simp only [comp_apply, emission, window, tag_stored own]

theorem emits_session (plain : config.reducer = none) {gap : Duration}
    (positive : 0 < gap) (assigner : config.assigner = .session ⟨gap⟩)
    (fits : ∀ r ∈ input, r.isMarker = false → Fits config.assigner r) {output : List Record}
    (ends : Ends windows (fun _ => True) { toWindowConfig := config } input output) :
    ∃ placed : List (Window × Record),
      (placed.map Prod.snd).Perm (accepted config Time.zero input) ∧
      (∀ p ∈ placed, p.1.start ≤ p.2.timestamp ∧ p.2.timestamp < p.1.stop) ∧
      (Record.data output).Perm (placed.map fun p =>
        tagWithWindowAndLateness p.2 p.1 config.allowedLateness) := by
  obtain ⟨ran, q, choice, flushed, last, runs, -, flush, rfl⟩ := ends
  have covered : ∀ op : WindowOperator, Separated gap op.recState →
      ∀ held ∈ op.recState.pairs, held.1.covers held.2 = true := by
    intro op separated held mem
    obtain ⟨entry, inside, there⟩ := mem_flatMap.1 mem
    obtain ⟨r, present, rfl⟩ := mem_map.1 there
    obtain ⟨going, same⟩ := ListState.getAll_of_mem_entries inside
    have cluster := separated.cluster entry.1 going
    rw [same] at cluster
    have lower := cluster.lower _ (mem_map_of_mem present)
    have upper := cluster.upper _ (mem_map_of_mem present)
    have width : (0 : Int) < gap := positive
    simp only [WindowKey.covers, decide_eq_true_eq]
    omega
  obtain ⟨same, separated, fired, emitted, good, perm⟩ := runs_account
    (fun held => held.1.covers held.2 = true) (fun op => Separated gap op.recState)
    Prod.snd (fun r => [r.stored]) plain covered
    (fun op choice r configured data => handleDataRecord_records (configured ▸ assigner) choice r)
    (fun op after r sends mem configured separated round => separated.round (configured ▸ assigner)
      positive (fun data => configured ▸ fits r mem data) round)
    rfl separated_empty runs
  obtain ⟨held, rfl, rest⟩ := flush_account (same ▸ plain) flush
  have all : ((fired ++ held).map Prod.snd).Perm
      ((accepted config Time.zero input).map Record.stored) := by
    have listed := (((rest.append_left fired).map Prod.snd).trans (by rw [map_append])).trans perm
    rwa [← map_eq_flatMap] at listed
  obtain ⟨placed, records, inside, agrees⟩ := exists_placed (fun r mem => by
    obtain ⟨inside, data⟩ := mem_of_accepted mem
    exact (fits r inside data).1) (fun h mem => by
      rcases mem_append.1 mem with early | late
      · exact good h early
      · exact covered q separated h (rest.mem_iff.1 late)) all
  refine ⟨placed, records, inside, ?_⟩
  rw [data_append, emitted, same, data_emission, ← map_append, agrees]

end Runs

section Examples

attribute [local instance] TimeText.blank

def everyFive : WindowConfig :=
  { assigner := .sliding ⟨10, 5, 0, by decide, by decide⟩, lateSink := true }

end Examples

end WindowOperator

end Weibo
