import Weibo.Operator.ReduceRuns
import Weibo.Operator.WindowRuns

/-!
# The log of fired windows

The windows that an operator fires, with their records, do not depend on its reducer: the log of a
run is a function of the input and of the orders in which the backend lists its keys. For windows
other than sessions these decide only the order of the log.
-/

namespace Weibo

open List Option Reaction

open ListState (Entry Splits getAll_appendAll getAll_clearAll mem_keys_clearAll)

namespace WindowOperator

variable {op other : WindowOperator}

def entry (op : WindowOperator) (wk : WindowKey) : Entry WindowKey Record :=
  ⟨wk, op.recState.getAll wk⟩

def fired (op : WindowOperator) (choice : Nat) (r : Record) : List (Entry WindowKey Record) :=
  if r.isWatermark then
    ((arrange choice op.recState.keys).filter (op.due (max op.currentWatermark r.timestamp))).map
      op.entry
  else []

def next [TimeText] (op : WindowOperator) (choice : Nat) (r : Record) : WindowOperator :=
  if r.isWatermark then
    { op with
      recState := ((arrange choice op.recState.keys).filter
        (op.due (max op.currentWatermark r.timestamp))).foldl ListState.clear op.recState
      currentWatermark := max op.currentWatermark r.timestamp }
  else if r.isBarrier then op
  else if op.isTooLate r.timestamp then op.emitLate r
  else op.handleDataRecord choice r

def log [TimeText] : (choices : Nat → Nat) → WindowOperator → List Record →
    List (Entry WindowKey Record)
  | choices, op, [] => (arrange (choices 0) op.recState.keys).map op.entry
  | choices, op, r :: rest =>
    op.fired (choices 0) r ++ log (fun i => choices (i + 1)) (op.next (choices 0) r) rest

section Log

variable [TimeText]

theorem fireAll_cons (op : WindowOperator) (entry : Entry WindowKey Record)
    (rest : List (Entry WindowKey Record)) :
    op.fireAll (entry :: rest) = (op.firing entry.1 entry.2).bind fun first =>
      (op.fireAll rest).map (first ++ ·) := by
  simp only [fireAll, bind_eq_bind]
  cases op.firing entry.1 entry.2 with
  | none => rfl
  | some first => cases op.fireAll rest <;> rfl

variable {sends : List Record} {after : WindowOperator}

theorem forEach_iff {due : WindowKey → Bool}
    {body : WindowKey → WindowOperator →
      Reaction WindowOperator Record} (firing : Firing due body op)
    {wks : List WindowKey} (distinct : wks.Nodup) :
    forEach body wks op = .send sends after ↔
      op.fireAll ((wks.filter due).map op.entry) = some sends ∧
        after = { op with recState := (wks.filter due).foldl ListState.clear op.recState } := by
  induction wks generalizing op sends with
  | nil =>
    simp only [forEach, filter_nil, map_nil, foldl_nil, fireAll]
    constructor
    · intro same
      cases same
      exact ⟨rfl, rfl⟩
    · rintro ⟨sent, rfl⟩
      cases sent
      rfl
  | cons wk rest ih =>
    obtain ⟨absent, distinct⟩ := nodup_cons.1 distinct
    rw [forEach, firing op wk rfl rfl]
    cases closes : due wk with
    | false =>
      have skips : (send [] op).andThen (forEach body rest) =
          forEach body rest op := by simp [andThen, send]
      rw [if_neg (by simp), skips, ih firing distinct, filter_cons_of_neg (by simp [closes])]
    | true =>
      rw [if_pos rfl, filter_cons_of_pos closes, map_cons, foldl_cons, fireAll_cons]
      let cleared : WindowOperator := { op with recState := op.recState.clear wk }
      have entries : ((rest.filter due).map cleared.entry) = (rest.filter due).map op.entry := by
        refine map_congr_left fun other mem => ?_
        have differs : other ≠ wk := fun same => absent (same ▸ (mem_filter.1 mem).1)
        simp [entry, cleared, ListState.getAll_clear, differs]
      have config : cleared.toWindowConfig = op.toWindowConfig := rfl
      have later : Firing due body cleared := firing
      have goesOn : ∀ more, forEach body rest cleared = .send more after ↔
          op.fireAll ((rest.filter due).map op.entry) = some more ∧ after = { cleared with
            recState := (rest.filter due).foldl ListState.clear cleared.recState } := by
        intro more
        rw [ih later distinct, entries, fireAll_congr config]
      simp only [fireWindow, entry]
      cases op.firing wk (op.recState.getAll wk) with
      | none => simp [fail, andThen, send]
      | some records =>
        constructor
        · intro same
          obtain ⟨sent, middle, more, here, there, rfl⟩ := of_andThen_eq_send same
          cases here
          obtain ⟨fires, rfl⟩ := (goesOn more).1 there
          exact ⟨by simp [fires], rfl⟩
        · rintro ⟨fires, rfl⟩
          rw [bind_some] at fires
          obtain ⟨more, goes, rfl⟩ := map_eq_some_iff.1 fires
          have loops := (goesOn more).2 ⟨goes, rfl⟩
          have first : (send records cleared).andThen (forEach body rest) =
              ⟨records ++ (forEach body rest cleared).sends,
                (forEach body rest cleared).next⟩ := rfl
          rw [first, loops]
          rfl

variable {choice : Nat} {r : Record}

theorem handleWatermark_iff : op.handleWatermark choice r = .send sends after ↔
      op.fireAll (((arrange choice op.recState.keys).filter
        (op.due (max op.currentWatermark r.timestamp))).map op.entry) = some sends ∧
      after = { op with
        recState := ((arrange choice op.recState.keys).filter
          (op.due (max op.currentWatermark r.timestamp))).foldl ListState.clear op.recState
        currentWatermark := max op.currentWatermark r.timestamp } := by
  have distinct : (arrange choice op.recState.keys).Nodup :=
    (arrange_perm choice op.recState.keys).nodup_iff.2 op.recState.keys_nodup
  let advanced := { op with currentWatermark := max op.currentWatermark r.timestamp }
  have config : advanced.toWindowConfig = op.toWindowConfig := rfl
  have entries : advanced.entry = op.entry := rfl
  rw [handleWatermark, forEach_iff (firing_due op r.timestamp) distinct, fireAll_congr config,
    entries]

theorem flushRemaining_iff : op.flushRemaining choice = .send sends after ↔
      op.fireAll ((arrange choice op.recState.keys).map op.entry) = some sends ∧
      after = { op with
        recState := (arrange choice op.recState.keys).foldl ListState.clear op.recState } := by
  have distinct : (arrange choice op.recState.keys).Nodup :=
    (arrange_perm choice op.recState.keys).nodup_iff.2 op.recState.keys_nodup
  have every : Firing (fun _ => true) fireWindow op := fun _ _ _ _ => rfl
  have all : (arrange choice op.recState.keys).filter (fun _ => true) =
      arrange choice op.recState.keys := filter_true _
  rw [flushRemaining, forEach_iff every distinct, all]

theorem config_next (op : WindowOperator) (choice : Nat) (r : Record) :
    (op.next choice r).toWindowConfig = op.toWindowConfig := by
  simp only [next]
  split
  · rfl
  · split
    · rfl
    · split
      · simp only [emitLate]
        split <;> rfl
      · exact (op.handleDataRecord_keeps choice r).1

theorem of_process (reacts : op.process choice r = .send sends after) :
    op.fireAll (op.fired choice r) = some (Record.data sends) ∧ after = op.next choice r := by
  simp only [process] at reacts
  simp only [fired, next]
  split at reacts
  next is =>
    obtain ⟨fires, rfl⟩ := handleWatermark_iff.1 reacts
    rw [if_pos is, if_pos is, data_of_fireAll fires]
    exact ⟨fires, rfl⟩
  next plain =>
    rw [if_neg plain, if_neg plain]
    split at reacts
    next is =>
      cases reacts
      rw [if_pos is, Record.data_singleton_marker (by simp [Record.isMarker, is])]
      exact ⟨rfl, rfl⟩
    next unmarked =>
      rw [if_neg unmarked]
      split at reacts
      next late =>
        cases reacts
        rw [if_pos late]
        exact ⟨rfl, rfl⟩
      next onTime =>
        cases reacts
        rw [if_neg onTime]
        exact ⟨rfl, rfl⟩

theorem exists_process {results : List Record}
    (fires : op.fireAll (op.fired choice r) = some results) : ∃ sends,
    op.process choice r = .send sends (op.next choice r) := by
  simp only [fired] at fires
  simp only [process, next]
  split
  next is =>
    rw [if_pos is] at fires
    exact ⟨results, handleWatermark_iff.2 ⟨fires, rfl⟩⟩
  · split
    · exact ⟨_, rfl⟩
    · split
      · exact ⟨_, rfl⟩
      · exact ⟨_, rfl⟩

variable {input : List Record}

theorem of_readAll {choices : Nat → Nat} {output : List Record} {last : WindowOperator}
    (reads : windows.readAll choices op input = .send output last) :
    op.fireAll (op.log choices input) = some (Record.data output) := by
  induction input generalizing op choices output with
  | nil =>
    obtain ⟨fires, -⟩ := flushRemaining_iff.1 reads
    rw [data_of_fireAll fires]
    exact fires
  | cons r rest ih =>
    obtain ⟨sends, after, later, reacts, goesOn, rfl⟩ := of_andThen_eq_send reads
    obtain ⟨fires, rfl⟩ := of_process reacts
    have more := ih goesOn
    rw [fireAll_congr (config_next op (choices 0) r)] at more
    rw [Record.data_append]
    exact fireAll_append fires more

theorem exists_readAll {choices : Nat → Nat} {results : List Record}
    (fires : op.fireAll (op.log choices input) = some results) :
    ∃ output last, windows.readAll choices op input = .send output last := by
  induction input generalizing op choices results with
  | nil => exact ⟨results, _, flushRemaining_iff.2 ⟨fires, rfl⟩⟩
  | cons r rest ih =>
    obtain ⟨first, more, here, there, -⟩ := of_fireAll_append fires
    obtain ⟨sends, reacts⟩ := exists_process here
    rw [← fireAll_congr (config_next op (choices 0) r)] at there
    obtain ⟨output, last, goesOn⟩ := ih there
    refine ⟨sends ++ output, last, ?_⟩
    have step : windows.readAll choices op (r :: rest) = (op.process (choices 0) r).andThen
        fun q => windows.readAll (fun i => choices (i + 1)) q rest := rfl
    rw [step, reacts]
    simp [andThen, send, goesOn]

/-! ## The reducer does not matter -/

def reducing (op : WindowOperator) (reducer : Option ReduceFn) : WindowOperator :=
  { op with reducer := reducer }

omit [TimeText] in
theorem assignToWindow_reducing (op : WindowOperator) (reducer : Option ReduceFn) (choice : Nat)
    (key : Bytes) (win : Window) (record : Record) :
    (op.reducing reducer).assignToWindow choice key win record =
      (op.assignToWindow choice key win record).reducing reducer := by
  have found : (op.reducing reducer).overlapping choice key win = op.overlapping choice key win :=
    rfl
  simp only [assignToWindow, found]
  have kind : (op.reducing reducer).assigner = op.assigner := rfl
  rw [kind]
  split <;> rfl

omit [TimeText] in
theorem handleDataRecord_reducing (op : WindowOperator) (reducer : Option ReduceFn) (choice : Nat)
    (record : Record) : (op.reducing reducer).handleDataRecord choice record =
      (op.handleDataRecord choice record).reducing reducer := by
  have wins : (op.reducing reducer).assigner = op.assigner := rfl
  simp only [handleDataRecord, wins]
  generalize op.assigner.assignWindows record.timestamp = wins
  induction wins generalizing op with
  | nil => rfl
  | cons win wins ih =>
    rw [foldl_cons, foldl_cons, assignToWindow_reducing]
    exact ih _ rfl

theorem next_reducing (op : WindowOperator) (reducer : Option ReduceFn) (choice : Nat)
    (r : Record) : (op.reducing reducer).next choice r = (op.next choice r).reducing reducer := by
  have late : (op.reducing reducer).isTooLate r.timestamp = op.isTooLate r.timestamp := rfl
  have side : (op.reducing reducer).lateSink = op.lateSink := rfl
  simp only [next, late, handleDataRecord_reducing, emitLate, side]
  split
  · rfl
  · split
    · rfl
    · split
      · split <;> rfl
      · rfl

theorem log_reducing (op : WindowOperator) (reducer : Option ReduceFn) (choices : Nat → Nat)
    (input : List Record) : (op.reducing reducer).log choices input = op.log choices input := by
  induction input generalizing op choices with
  | nil => rfl
  | cons r rest ih =>
    have fires : (op.reducing reducer).fired (choices 0) r = op.fired (choices 0) r := rfl
    rw [log, log, fires, next_reducing, ih]

/-! ## What windows in the log hold -/

structure Sound (state : ListState WindowKey Record) : Prop where
  filled : ∀ wk ∈ state.keys, state.getAll wk ≠ []
  owned : ∀ wk ∈ state.keys, ∀ r ∈ state.getAll wk, r.key = wk.key
  fits : ∀ wk ∈ state.keys, wk.Fits

omit [TimeText] in
theorem sound_empty : Sound ∅ := ⟨by simp, by simp, by simp⟩

variable {state : ListState WindowKey Record}

omit [TimeText] in
theorem Sound.clearAll (sound : Sound state)
    (wks : List WindowKey) : Sound (wks.foldl ListState.clear state) := by
  refine ⟨fun wk mem => ?_, fun wk mem r inside => ?_, fun wk mem => ?_⟩
  · obtain ⟨outside, kept⟩ := (mem_keys_clearAll state wks wk).1 mem
    rw [getAll_clearAll, if_neg outside]
    exact sound.filled wk kept
  · obtain ⟨outside, kept⟩ := (mem_keys_clearAll state wks wk).1 mem
    rw [getAll_clearAll, if_neg outside] at inside
    exact sound.owned wk kept r inside
  · exact sound.fits wk ((mem_keys_clearAll state wks wk).1 mem).2

omit [TimeText] in
theorem Sound.appendAll (sound : Sound state) {wk : WindowKey}
    (fits : wk.Fits) {records : List Record} (given : records ≠ [])
    (owned : ∀ r ∈ records, r.key = wk.key) : Sound (state.appendAll wk records) := by
  have held : ∀ r ∈ state.getAll wk, r.key = wk.key := by
    intro r mem
    by_cases present : wk ∈ state.keys
    · exact sound.owned wk present r mem
    · rw [ListState.getAll_of_not_mem present] at mem
      cases mem
  have keys : ∀ other ∈ (state.appendAll wk records).keys, other ≠ wk → other ∈ state.keys := by
    intro other mem differs
    exact ((ListState.mem_keys_appendAll state wk other records).1 mem).resolve_left
      fun here => differs here.1
  refine ⟨fun other mem => ?_, fun other mem r inside => ?_, fun other mem => ?_⟩
  · rw [getAll_appendAll]
    split
    · simp [given]
    next differs =>
      exact sound.filled other (keys other mem differs)
  · rw [getAll_appendAll] at inside
    split at inside
    next same =>
      rw [same]
      rcases mem_append.1 inside with old | new
      · exact held r old
      · exact owned r new
    next differs =>
      exact sound.owned other (keys other mem differs) r inside
  · by_cases same : other = wk
    · rw [same]
      exact fits
    · exact sound.fits other (keys other mem same)

omit [TimeText] in
theorem Sound.assign (sound : Sound op.recState) (choice : Nat) (win : Window) (record : Record) :
    Sound (op.assignToWindow choice record.key win record).recState := by
  have fits : ∀ win : Window, (toWindowKey record.key win).Fits := fun win =>
    ⟨unixNano_unixNano win.start, unixNano_unixNano win.stop⟩
  cases session : op.assigner.isSession with
  | false =>
    have assigned : (op.assignToWindow choice record.key win record).recState =
        op.recState.appendAll (toWindowKey record.key win) [record] := by
      simp [assignToWindow, session, ListState.appendAll]
    rw [assigned]
    exact sound.appendAll (fits win) (by simp) (by simp [toWindowKey])
  | true =>
    rw [assignToWindow_session session]
    refine (sound.clearAll _).appendAll (fits _) (by simp) fun r mem => ?_
    rcases mem_append.1 mem with old | new
    · obtain ⟨wk, found, inside⟩ := mem_flatMap.1 old
      obtain ⟨going, same, -⟩ := mem_overlapping.1 found
      exact (sound.owned wk going r inside).trans same
    · rw [mem_singleton.1 new]
      rfl

omit [TimeText] in
theorem Sound.stamped (sound : Sound state) : Stamped state :=
  fun wk mem => (sound.fits wk mem).2

theorem Sound.next (sound : Sound op.recState) (choice : Nat) (r : Record) :
    Sound (op.next choice r).recState := by
  simp only [WindowOperator.next]
  split
  · exact sound.clearAll _
  · split
    · exact sound
    · split
      · simp only [emitLate]
        split <;> exact sound
      · exact foldlRecOn (motive := fun after : WindowOperator => Sound after.recState) _ _ sound
          fun current kept win _ => kept.assign choice win r.stored

omit [TimeText] in
theorem Sound.listed (sound : Sound op.recState) {e : Entry WindowKey Record}
    (mem : e ∈ (arrange choice op.recState.keys).map op.entry) :
    e.2 ≠ [] ∧ (∀ r ∈ e.2, r.key = e.1.key) ∧ e.1.Fits := by
  obtain ⟨wk, inside, rfl⟩ := List.mem_map.1 mem
  have going : wk ∈ op.recState.keys := (arrange_perm choice op.recState.keys).mem_iff.1 inside
  exact ⟨sound.filled wk going, sound.owned wk going, sound.fits wk going⟩

theorem Sound.log (sound : Sound op.recState) (choices : Nat → Nat) (input : List Record) :
    ∀ e ∈ op.log choices input, e.2 ≠ [] ∧ (∀ r ∈ e.2, r.key = e.1.key) ∧ e.1.Fits := by
  induction input generalizing op choices with
  | nil => exact fun e mem => sound.listed mem
  | cons r rest ih =>
    intro e mem
    rcases mem_append.1 mem with here | later
    · simp only [fired] at here
      split at here
      · obtain ⟨wk, inside, rfl⟩ := List.mem_map.1 here
        exact sound.listed (List.mem_map_of_mem (mem_filter.1 inside).1)
      · cases here
    · exact ih (sound.next (choices 0) r) _ e later

/-! ## No window fires twice -/

omit [TimeText] in
theorem map_fst_entry (op : WindowOperator) (wks : List WindowKey) :
    (wks.map op.entry).map Sigma.fst = wks := by
  rw [List.map_map]
  exact List.map_id _

omit [TimeText] in
theorem nodup_fired (op : WindowOperator) (choice : Nat) (r : Record) :
    ((op.fired choice r).map Sigma.fst).Nodup ∧
      ∀ wk ∈ (op.fired choice r).map Sigma.fst, wk ∈ op.recState.keys := by
  have listing := arrange_perm choice op.recState.keys
  rw [fired]
  split
  · rw [map_fst_entry]
    exact ⟨(listing.nodup_iff.2 op.recState.keys_nodup).filter _,
      fun wk mem => listing.mem_iff.1 (mem_filter.1 mem).1⟩
  · exact ⟨nodup_nil, by simp⟩

theorem round_next (plain : op.reducer = none) (choice : Nat) (r : Record) :
    ∃ sends, Round op r sends (op.next choice r) := by
  obtain ⟨sends, reacts⟩ := exists_process (fireAll_records plain (op.fired choice r))
  exact ⟨sends, round_of_process reacts⟩

theorem closed_next (plain : op.reducer = none) (stamped : Stamped op.recState)
    (lateness : 0 ≤ op.allowedLateness) {wk : WindowKey}
    (mem : wk ∈ (op.fired choice r).map Sigma.fst) : Closed wk (op.next choice r) := by
  obtain ⟨sends, round⟩ := round_next plain choice r
  cases is : r.isWatermark with
  | false => simp [fired, is] at mem
  | true =>
    have before := (nodup_fired op choice r).2 wk mem
    rw [fired, if_pos is, map_fst_entry] at mem
    have gone : wk ∉ (op.next choice r).recState.keys := by
      rw [WindowOperator.next, if_pos is]
      exact fun kept => ((mem_keys_clearAll _ _ wk).1 kept).1 mem
    exact closed_of_fired stamped lateness is round before gone

theorem nodup_log (plain : op.reducer = none) (sound : Sound op.recState)
    (lateness : 0 ≤ op.allowedLateness)
    (ahead : ∀ r ∈ input, r.isMarker = false → Ahead op.assigner r) (choices : Nat → Nat) :
    ((op.log choices input).map Sigma.fst).Nodup ∧
      ∀ wk, Closed wk op → wk ∉ (op.log choices input).map Sigma.fst := by
  induction input generalizing op choices with
  | nil =>
    have listing := arrange_perm (choices 0) op.recState.keys
    rw [log, map_fst_entry]
    exact ⟨listing.nodup_iff.2 op.recState.keys_nodup,
      fun wk closed mem => closed.absent (listing.mem_iff.1 mem)⟩
  | cons r rest ih =>
    have config := config_next op (choices 0) r
    have plain' : (op.next (choices 0) r).reducer = none := by
      rw [config]
      exact plain
    have lateness' : 0 ≤ (op.next (choices 0) r).allowedLateness := by
      rw [config]
      exact lateness
    obtain ⟨later, absent⟩ := ih plain' (sound.next (choices 0) r) lateness'
      (fun r mem => config ▸ ahead r (.tail _ mem)) (fun i => choices (i + 1))
    obtain ⟨here, going⟩ := nodup_fired op (choices 0) r
    rw [log, map_append]
    refine ⟨nodup_append.2 ⟨here, later, fun wk early other late same => ?_⟩,
      fun wk closed mem => ?_⟩
    · exact absent wk (closed_next plain sound.stamped lateness early) (same ▸ late)
    · rcases mem_append.1 mem with early | late
      · exact closed.absent (going wk early)
      · obtain ⟨sends, round⟩ := round_next plain (choices 0) r
        exact absent wk (closed.round (ahead r mem_cons_self) round) late

/-! ## The order of the listings -/

structure Same (op other : WindowOperator) : Prop where
  config : op.toWindowConfig = other.toWindowConfig
  watermark : op.currentWatermark = other.currentWatermark
  splits : Splits [] op.recState other.recState

omit [TimeText] in
theorem Same.keys (same : Same op other) : op.recState.keys.Perm other.recState.keys := by
  have keys := same.splits.keys
  rwa [List.keys, map_nil, append_nil] at keys

omit [TimeText] in
theorem Same.entry (same : Same op other) : op.entry = other.entry := by
  funext wk
  rw [WindowOperator.entry, WindowOperator.entry, same.splits.getAll (by simp)]

omit [TimeText] in
theorem Same.fired (same : Same op other) (choice another : Nat) (r : Record) :
    (op.fired choice r).Perm (other.fired another r) := by
  have due : op.due = other.due := by
    funext watermark wk
    simp only [WindowOperator.due, same.config]
  simp only [WindowOperator.fired]
  split
  · rw [same.entry, due, same.watermark]
    refine Perm.map _ (Perm.filter _ ?_)
    exact ((arrange_perm choice _).trans same.keys).trans (arrange_perm another _).symm
  · exact .refl _

omit [TimeText] in
theorem Same.assign (same : Same op other) (fixed : op.assigner.isSession = false)
    (choice another : Nat) (key : Bytes) (win : Window) (record : Record) : Same
    (op.assignToWindow choice key win record) (other.assignToWindow another key win record) := by
  have fixed' : other.assigner.isSession = false := by
    rw [← congrArg WindowConfig.assigner same.config]
    exact fixed
  have mine : op.assignToWindow choice key win record =
      { op with recState := op.recState.append (toWindowKey key win) record } := by
    simp [assignToWindow, fixed]
  have others : other.assignToWindow another key win record =
      { other with recState := other.recState.append (toWindowKey key win) record } := by
    simp [assignToWindow, fixed']
  rw [mine, others]
  exact ⟨same.config, same.watermark, same.splits.append (by simp) record⟩

omit [TimeText] in
theorem Same.handleDataRecord (same : Same op other) (fixed : op.assigner.isSession = false)
    (choice another : Nat) (r : Record) :
    Same (op.handleDataRecord choice r) (other.handleDataRecord another r) := by
  simp only [WindowOperator.handleDataRecord, same.config]
  generalize other.assigner.assignWindows r.timestamp = wins
  induction wins generalizing op other with
  | nil => exact same
  | cons win wins ih =>
    have config := (op.assignToWindow_keeps choice r.key win r.stored).1
    refine ih (same.assign fixed choice another r.key win r.stored) ?_
    rw [config]
    exact fixed

theorem Same.next (same : Same op other) (fixed : op.assigner.isSession = false)
    (choice another : Nat) (r : Record) : Same (op.next choice r) (other.next another r) := by
  have due : op.due = other.due := by
    funext watermark wk
    simp only [WindowOperator.due, same.config]
  have late : op.isTooLate r.timestamp = other.isTooLate r.timestamp := by
    simp only [isTooLate, same.watermark, same.config]
  simp only [WindowOperator.next, late]
  split
  · refine ⟨same.config, by simp only [same.watermark], ?_⟩
    simp only [due, same.watermark]
    have listed := (((arrange_perm choice _).trans same.keys).trans
      (arrange_perm another _).symm).filter
      (other.due (max other.currentWatermark r.timestamp))
    have order : ∀ a b : WindowKey, ∀ state : ListState WindowKey Record,
        (state.clear a).clear b = (state.clear b).clear a := fun a b state =>
      AList.erase_erase a b state
    rw [listed.foldl_eq' (fun a _ b _ state => order a b state)]
    exact same.splits.clearAll (by simp)
  · split
    · exact same
    · split
      · have kept : ∀ op : WindowOperator, (op.emitLate r).toWindowConfig = op.toWindowConfig ∧
            (op.emitLate r).currentWatermark = op.currentWatermark ∧
            (op.emitLate r).recState = op.recState := fun op => by
          simp only [emitLate]
          split <;> exact ⟨rfl, rfl, rfl⟩
        obtain ⟨config, watermark, state⟩ := kept op
        obtain ⟨config', watermark', state'⟩ := kept other
        refine ⟨?_, ?_, ?_⟩
        · rw [config, config', same.config]
        · rw [watermark, watermark', same.watermark]
        · rw [state, state']
          exact same.splits
      · exact same.handleDataRecord fixed choice another r

/-- Whatever the orders of the listings, the log is the same up to its order, unless the windows
are sessions. -/
theorem Same.log (same : Same op other) (fixed : op.assigner.isSession = false)
    (choices others : Nat → Nat) (input : List Record) :
    (op.log choices input).Perm (other.log others input) := by
  induction input generalizing op other choices others with
  | nil =>
    rw [WindowOperator.log, WindowOperator.log, same.entry]
    exact (((arrange_perm _ _).trans same.keys).trans (arrange_perm _ _).symm).map _
  | cons r rest ih =>
    have config := config_next op (choices 0) r
    refine (same.fired (choices 0) (others 0) r).append (ih (same.next fixed _ _ r) ?_ _ _)
    rw [config]
    exact fixed

end Log

end WindowOperator

end Weibo
