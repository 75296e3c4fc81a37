import Weibo.Operator.FiringLog

/-!
# Aggregating in the window or behind it

`WindowReduce` folds the records of a window when it fires; `Window` followed by `Reduce` emits a
partial result for every record. A window fires once and in one piece, so the last partial result is
what `WindowReduce` emits.
-/

namespace Weibo

open List Option Record

open ListState (Entry)
open Ledger (recordsOf)
open ReduceOperator (Undisturbed lastValue reduces counting exists_runs runs_windows)

/-- The function depends on the accumulator, where nil is empty, and on the key, value, timestamp
and offset of the record. -/
def ReduceFn.Fieldwise (fn : ReduceFn) : Prop :=
  ∀ accum accum' r r', accum.getD [] = accum'.getD [] → r.key = r'.key → r.value = r'.value →
    r.timestamp = r'.timestamp → r.offset = r'.offset →
    (fn accum r).map (·.getD []) = (fn accum' r').map (·.getD [])

namespace WindowOperator

def windowReduce (config : WindowConfig) (fn : ReduceFn) : WindowOperator :=
  { toWindowConfig := { config with reducer := some fn } }

def plainWindow (config : WindowConfig) : WindowOperator :=
  { toWindowConfig := { config with reducer := none } }

section Equivalence

variable [TimeText]

/-- `Window` followed by `Reduce`, up to the end of the input. -/
def WindowThenReduce (config : WindowConfig) (fn : ReduceFn) (choices : Nat → Nat)
    (input values : List Record) : Prop :=
  ∃ sent last, windows.readAll choices (plainWindow config) input = .send sent last ∧
    Chain.Ends reduces (fun _ => True) { fn := fn } sent values

/-- The results of `WindowReduce` are the last values of `Window` followed by `Reduce`. -/
structure SameResults (aggregates values : List Record) : Prop where
  single : ((data aggregates).map windowOf).Nodup
  pairs : ∀ wk, wk ∈ (data aggregates).map windowOf ↔ wk ∈ (data values).map windowOf
  last : ∀ r ∈ data aggregates, ∃ wk, windowOf r = some wk ∧ lastValue wk values = some r.value

/-- The two forms agree on an input, under the same listings of the keys. Unless the windows are
sessions they agree under any listings. -/
structure FormsAgree (config : WindowConfig) (fn : ReduceFn) (input : List Record) : Prop where
  completes : ∀ choices others, choices = others ∨ config.assigner.isSession = false →
    ((∃ aggregates last, windows.readAll choices (windowReduce config fn) input =
        .send aggregates last) ↔
      ∃ values, WindowThenReduce config fn others input values)
  results : ∀ choices others, choices = others ∨ config.assigner.isSession = false →
    ∀ aggregates last values,
    windows.readAll choices (windowReduce config fn) input = .send aggregates last →
    WindowThenReduce config fn others input values → SameResults aggregates values

/-! ## What the windows send -/

def tagged (config : WindowConfig) (log : List (Entry WindowKey Record)) : List Record :=
  log.flatMap fun e => e.2.map fun r => tagWithWindowAndLateness r e.1.window config.allowedLateness

def SoundLog (log : List (Entry WindowKey Record)) : Prop :=
  ∀ e ∈ log, e.2 ≠ [] ∧ (∀ r ∈ e.2, r.key = e.1.key) ∧ e.1.Fits

variable {config : WindowConfig} {fn : ReduceFn} {log : List (Entry WindowKey Record)}
  {choices : Nat → Nat} {input : List Record}

theorem data_of_plain {sent : List Record} {last : WindowOperator}
    (reads : windows.readAll choices (plainWindow config) input = .send sent last) :
    data sent = tagged config ((plainWindow config).log choices input) := by
  have fires := of_readAll reads
  have plain : (plainWindow config).reducer = none := rfl
  rw [fireAll_records plain] at fires
  rw [← some.inj fires, tagged, map_flatMap]
  refine flatMap_congr fun e _ => ?_
  rw [List.map_map]
  rfl

theorem windowed_tagged (sound : SoundLog log) : ∀ r ∈ tagged config log, ∃ wk, Windowed wk r := by
  intro r mem
  obtain ⟨e, inside, mem⟩ := mem_flatMap.1 mem
  obtain ⟨record, held, rfl⟩ := mem_map.1 mem
  obtain ⟨-, owned, fits⟩ := sound e inside
  exact ⟨e.1, windowed_tag (owned record held) fits _⟩

theorem windows_tagged (texts : TimeText.Exact) (sound : SoundLog log) {wk : Option WindowKey} :
    wk ∈ (log.map Sigma.fst).map some ↔ wk ∈ (tagged config log).map windowOf := by
  have named : ∀ e ∈ log, ∀ r ∈ e.2,
      windowOf (tagWithWindowAndLateness r e.1.window config.allowedLateness) = some e.1 := by
    intro e mem r held
    obtain ⟨-, owned, fits⟩ := sound e mem
    exact (windowed_tag (owned r held) fits _).windowOf texts
  constructor
  · intro mem
    obtain ⟨key, listed, rfl⟩ := mem_map.1 mem
    obtain ⟨e, inside, rfl⟩ := mem_map.1 listed
    obtain ⟨r, held⟩ := exists_mem_of_ne_nil _ (sound e inside).1
    refine mem_map.2 ⟨_, mem_flatMap.2 ⟨e, inside, mem_map_of_mem held⟩, ?_⟩
    exact named e inside r held
  · intro mem
    obtain ⟨record, listed, rfl⟩ := mem_map.1 mem
    obtain ⟨e, inside, sent⟩ := mem_flatMap.1 listed
    obtain ⟨r, held, rfl⟩ := mem_map.1 sent
    rw [named e inside r held]
    exact mem_map_of_mem (mem_map_of_mem inside)

variable {e : Entry WindowKey Record}

theorem recordsOf_entry (texts : TimeText.Exact)
    (owned : ∀ r ∈ e.2, r.key = e.1.key) (fits : e.1.Fits) (wk : WindowKey) :
    recordsOf wk (tagged config [e]) = if e.1 = wk then tagged config [e] else [] := by
  have named : ∀ r ∈ tagged config [e], windowOf r = some e.1 := by
    intro r mem
    rw [tagged, flatMap_singleton] at mem
    obtain ⟨record, held, rfl⟩ := mem_map.1 mem
    exact (windowed_tag (owned record held) fits _).windowOf texts
  split
  next same =>
    exact filter_eq_self.2 fun r mem => by simp [named r mem, same]
  next differs =>
    exact filter_eq_nil_iff.2 fun r mem => by simp [named r mem, differs]

theorem recordsOf_absent (texts : TimeText.Exact) (sound : SoundLog log) {wk : WindowKey}
    (outside : wk ∉ log.map Sigma.fst) : recordsOf wk (tagged config log) = [] := by
  refine filter_eq_nil_iff.2 fun r inside named => ?_
  obtain ⟨e, listed, mem⟩ := mem_flatMap.1 inside
  obtain ⟨record, held, rfl⟩ := mem_map.1 mem
  obtain ⟨-, owned, fits⟩ := sound e listed
  have window := (windowed_tag (owned record held) fits config.allowedLateness).windowOf texts
  have same : e.1 = wk := some.inj (window.symm.trans (of_decide_eq_true named))
  exact outside (same ▸ mem_map_of_mem listed)

theorem recordsOf_tagged (texts : TimeText.Exact) (sound : SoundLog log)
    (distinct : (log.map Sigma.fst).Nodup) (mem : e ∈ log) :
    recordsOf e.1 (tagged config log) = tagged config [e] := by
  induction log with
  | nil => cases mem
  | cons first rest ih =>
    obtain ⟨outside, distinct⟩ := nodup_cons.1 distinct
    obtain ⟨-, owned, fits⟩ := sound first mem_cons_self
    have later : SoundLog rest := fun e mem => sound e (.tail _ mem)
    have split : tagged config (first :: rest) = tagged config [first] ++ tagged config rest := by
      simp [tagged]
    rw [split, Ledger.recordsOf_append, recordsOf_entry texts owned fits]
    rcases mem_cons.1 mem with rfl | inside
    · rw [if_pos rfl, recordsOf_absent texts later outside, append_nil]
    · have differs : first.1 ≠ e.1 := fun same => outside (same ▸ mem_map_of_mem inside)
      rw [if_neg differs, nil_append]
      exact ih later distinct inside

theorem grouped_tagged (texts : TimeText.Exact) (sound : SoundLog log)
    (distinct : (log.map Sigma.fst).Nodup) : Grouped windowOf (tagged config log) := by
  refine ⟨log.map fun e => (some e.1, tagged config [e]), ?_, ?_, ?_⟩
  · have keys : (log.map fun e => (some e.1, tagged config [e])).map Prod.fst =
        (log.map Sigma.fst).map some := by simp [Function.comp_def]
    rw [keys]
    exact distinct.map (some_injective _)
  · rw [flatMap_map]
    exact flatMap_congr fun e _ => by simp [tagged]
  · intro g mem r inside
    obtain ⟨e, listed, rfl⟩ := mem_map.1 mem
    obtain ⟨-, owned, fits⟩ := sound e listed
    obtain ⟨record, held, rfl⟩ := mem_map.1 (by simpa [tagged] using inside)
    exact (windowed_tag (owned record held) fits _).windowOf texts

/-! ## The folds of a window -/

theorem folded_tagged (config : WindowConfig) (fieldwise : fn.Fieldwise)
    (e : Entry WindowKey Record) : (fn.folded (tagged config [e])).map
    (·.getD []) = (reduceEntries fn e.2).map (·.getD []) := by
  have general : ∀ (entries : List Record) (accum accum' : Option Bytes),
      accum.getD [] = accum'.getD [] →
      ((entries.map fun r => tagWithWindowAndLateness r e.1.window config.allowedLateness).foldlM
        (fun accum r => (fn accum r).map fun result => some (result.getD [])) accum).map
          (·.getD []) =
      (entries.foldlM fn accum').map (·.getD []) := by
    intro entries
    induction entries with
    | nil => exact fun accum accum' same => congrArg some same
    | cons r rest ih =>
      intro accum accum' same
      have step := fieldwise accum accum'
        (tagWithWindowAndLateness r e.1.window config.allowedLateness) r same rfl rfl rfl rfl
      rw [map_cons, foldlM_cons, foldlM_cons]
      cases first : fn accum (tagWithWindowAndLateness r e.1.window config.allowedLateness) with
      | none =>
        cases second : fn accum' r with
        | none => rfl
        | some result => simp [first, second] at step
      | some result =>
        cases second : fn accum' r with
        | none => simp [first, second] at step
        | some result' =>
          have equal : result.getD [] = result'.getD [] := by simpa [first, second] using step
          exact ih (some (result.getD [])) result' equal
  simpa [tagged, ReduceFn.folded, reduceEntries] using general e.2 none none rfl

variable {op : WindowOperator}

theorem firing_reduces (texts : TimeText.Exact) (reduces : op.reducer = some fn)
    (given : e.2 ≠ []) (owned : ∀ r ∈ e.2, r.key = e.1.key)
    (fits : e.1.Fits) : ∃ result : Option Bytes → Record,
      op.firing e.1 e.2 = (reduceEntries fn e.2).map (fun accum => [result accum]) ∧
      ∀ accum, windowOf (result accum) = some e.1 ∧ (result accum).value = accum.getD [] := by
  obtain ⟨last, ends⟩ : ∃ last, e.2.getLast? = some last := ⟨_, getLast?_eq_some_getLast given⟩
  have inside : last ∈ e.2 := mem_of_getLast? ends
  refine ⟨_, by simp only [firing, reduces, ends]; rfl, fun accum => ⟨?_, rfl⟩⟩
  refine (windowed_tag ?_ fits op.allowedLateness).windowOf texts
  exact owned last inside

def Results (fn : ReduceFn) : List (Entry WindowKey Record) → List Record → Prop :=
  Forall₂ fun e r => windowOf r = some e.1 ∧ (reduceEntries fn e.2).map (·.getD []) = some r.value

variable {results : List Record}

theorem results_of_fireAll (texts : TimeText.Exact) (reduces : op.reducer = some fn)
    (sound : SoundLog log) (fires : op.fireAll log = some results) : Results fn log results := by
  induction log generalizing results with
  | nil =>
    cases fires
    exact .nil
  | cons e rest ih =>
    obtain ⟨given, owned, fits⟩ := sound e mem_cons_self
    obtain ⟨result, sends, window⟩ := firing_reduces texts reduces given owned fits
    rw [fireAll_cons, sends] at fires
    obtain ⟨first, folds, fires⟩ := bind_eq_some_iff.1 fires
    obtain ⟨accum, folded, rfl⟩ := map_eq_some_iff.1 folds
    obtain ⟨more, later, rfl⟩ := map_eq_some_iff.1 fires
    obtain ⟨named, value⟩ := window accum
    refine .cons ⟨named, ?_⟩ (ih (fun e mem => sound e (.tail _ mem)) later)
    rw [folded, value]
    rfl

theorem exists_fireAll (texts : TimeText.Exact) (reduces : op.reducer = some fn)
    (sound : SoundLog log) (folds : ∀ e ∈ log, (reduceEntries fn e.2).isSome = true) : ∃ results,
    op.fireAll log = some results := by
  induction log with
  | nil => exact ⟨[], rfl⟩
  | cons e rest ih =>
    obtain ⟨given, owned, fits⟩ := sound e mem_cons_self
    obtain ⟨result, sends, -⟩ := firing_reduces texts reduces given owned fits
    obtain ⟨accum, folded⟩ := isSome_iff_exists.1 (folds e mem_cons_self)
    obtain ⟨more, later⟩ :=
      ih (fun e mem => sound e (.tail _ mem)) fun e mem => folds e (.tail _ mem)
    exact ⟨result accum :: more, by simp [fireAll_cons, sends, folded, later]⟩

theorem Results.windows (each : Results fn log results) :
    results.map windowOf = (log.map Sigma.fst).map some := by
  induction each with
  | nil => rfl
  | cons here _ ih => simp [here.1, ih]

theorem Results.exists_entry (each : Results fn log results) {r : Record}
    (mem : r ∈ results) : ∃ e ∈ log, windowOf r = some e.1 ∧
      (reduceEntries fn e.2).map (·.getD []) = some r.value := by
  induction each with
  | nil => cases mem
  | @cons e first _ _ here _ ih =>
    rcases mem_cons.1 mem with rfl | later
    · exact ⟨e, mem_cons_self, here⟩
    · obtain ⟨e, inside, facts⟩ := ih later
      exact ⟨e, .tail _ inside, facts⟩

theorem Results.isSome
    (each : Results fn log results) : ∀ e ∈ log, (reduceEntries fn e.2).isSome = true := by
  induction each with
  | nil => simp
  | @cons first _ _ _ here _ ih =>
    intro e mem
    rcases mem_cons.1 mem with rfl | later
    · have value := congrArg Option.isSome here.2
      rwa [isSome_map] at value
    · exact ih e later

/-! ## Both forms -/

section Forms

variable (texts : TimeText.Exact) (fieldwise : fn.Fieldwise) (sound : SoundLog log)
  (distinct : (log.map Sigma.fst).Nodup) {sent values : List Record}
  (sends : data sent = tagged config log)

include sound sends

theorem windowed_sent : ∀ r ∈ data sent, ∃ wk, Windowed wk r := by
  rw [sends]
  exact windowed_tagged sound

include texts distinct

theorem undisturbed_sent : Undisturbed sent := by
  refine ReduceOperator.undisturbed_of_grouped texts (windowed_sent sound sends) ?_
  rw [sends]
  exact grouped_tagged texts sound distinct

include fieldwise

theorem last_of_reduce (ends : Chain.Ends reduces (fun _ => True) { fn := fn } sent values)
    {e : Entry WindowKey Record} (mem : e ∈ log) :
    (lastValue e.1 values).isSome = true ∧
      (reduceEntries fn e.2).map (·.getD []) = lastValue e.1 values := by
  obtain ⟨ran, q, choice, flushed, last, runs, -, flush, rfl⟩ := ends
  cases flush
  rw [append_nil]
  have folds := (undisturbed_sent texts sound distinct sends).folds texts
    (windowed_sent sound sends) runs e.1
  rw [sends, recordsOf_tagged texts sound distinct mem] at folds
  have given : (lastValue e.1 ran).isSome = true := by
    cases value : lastValue e.1 ran with
    | some _ => rfl
    | none =>
      rw [value] at folds
      have nothing := ReduceFn.folded_none folds
      exact absurd (by simpa [tagged] using nothing) (sound e mem).1
  have same := folded_tagged config fieldwise e
  obtain ⟨value, found⟩ := isSome_iff_exists.1 given
  rw [folds, found] at same
  exact ⟨given, by rw [found, ← same]; rfl⟩

theorem exists_reduce (folds : ∀ e ∈ log, (reduceEntries fn e.2).isSome = true) :
    ∃ values, Chain.Ends reduces (fun _ => True) { fn := fn } sent values := by
  have undisturbed := undisturbed_sent texts sound distinct sends
  have whole : ∀ wk, (fn.folded (recordsOf wk (data sent))).isSome = true := by
    intro wk
    by_cases listed : wk ∈ log.map Sigma.fst
    · obtain ⟨e, mem, rfl⟩ := mem_map.1 listed
      have same := congrArg Option.isSome (folded_tagged config fieldwise e)
      rw [isSome_map, isSome_map, folds e mem] at same
      rw [sends, recordsOf_tagged texts sound distinct mem]
      exact same
    · rw [sends, recordsOf_absent texts sound listed]
      rfl
  obtain ⟨values, q, runs⟩ := undisturbed.exists_runs texts (windowed_sent sound sends) whole
  exact ⟨values, values, q, 0, [], q, runs, trivial, rfl, (append_nil _).symm⟩

end Forms

theorem plain_log (lateness : 0 ≤ config.allowedLateness)
    (ahead : ∀ r ∈ input, r.isMarker = false → Ahead config.assigner r) (choices : Nat → Nat) :
    SoundLog ((plainWindow config).log choices input) ∧
      (((plainWindow config).log choices input).map Sigma.fst).Nodup :=
  have sound : Sound (plainWindow config).recState := sound_empty
  ⟨sound.log choices input, (nodup_log rfl sound lateness ahead choices).1⟩

theorem log_windowReduce (config : WindowConfig) (fn : ReduceFn) (input : List Record)
    {choices others : Nat → Nat} (order : choices = others ∨ config.assigner.isSession = false) :
    ((windowReduce config fn).log choices input).Perm ((plainWindow config).log others input) := by
  have plain :
    (windowReduce config fn).log choices input = (plainWindow config).log choices input :=
    log_reducing (plainWindow config) (some fn) choices input
  rw [plain]
  rcases order with rfl | fixed
  · exact .refl _
  · have same : Same (plainWindow config) (plainWindow config) :=
      ⟨rfl, rfl, by simp [ListState.Splits]⟩
    exact same.log fixed choices others input

end Equivalence

section Examples

local instance onesTimeText : TimeText := unaryTimeText

theorem ten_positive : (0 : Duration) < 10 := by decide

def patientTens : WindowConfig :=
  { assigner := .tumbling ⟨10, 0, ten_positive⟩, allowedLateness := 3 }

def twoWindows : List Record :=
  [{ timestamp := 7 }, { timestamp := 3 }, newWatermark 20, { timestamp := 12 },
    { timestamp := 18 }]

def sparse : WindowConfig := { assigner := .sliding ⟨1, 10, 0, Int.one_pos, ten_positive⟩ }

def reopened : List Record := [{ timestamp := 5 }, newWatermark 2, { timestamp := 6 }]

def fifteens : WindowConfig := { assigner := .session ⟨15⟩ }

def bridged : List Record :=
  [{ timestamp := 0, value := [1] }, { timestamp := 20, value := [2] },
    { timestamp := 10, value := [3] }]

def joining : ReduceFn := fun accum r => some (some (accum.getD [] ++ r.value))

def reversed (i : Nat) : Nat := if i = 2 then 1 else 0

def apart : WindowOperator :=
  ((plainWindow fifteens).next 0 { timestamp := 0, value := [1] }).next 0
    { timestamp := 20, value := [2] }

theorem log_reversed : (plainWindow fifteens).log reversed bridged =
    [⟨⟨[], 0, 35⟩, [{ timestamp := 0, value := [1] }, { timestamp := 20, value := [2] },
      { timestamp := 10, value := [3] }]⟩] := by
  have keys : apart.recState.keys = [⟨[], 20, 35⟩, ⟨[], 0, 15⟩] := by decide +kernel
  have met : apart.overlapping 1 [] ⟨10, 25⟩ = [⟨[], 0, 15⟩, ⟨[], 20, 35⟩] := by
    rw [overlapping, keys, arrange_pair]
    decide
  let joined := apart.assignToWindow 1 [] ⟨10, 25⟩ { timestamp := 10, value := [3] }
  have state : joined.recState = ((apart.overlapping 1 [] ⟨10, 25⟩).foldl ListState.clear
      apart.recState).appendAll ⟨[], 0, 35⟩ ((apart.overlapping 1 [] ⟨10, 25⟩).flatMap
        apart.recState.getAll ++ [{ timestamp := 10, value := [3] }]) := by
    rw [assignToWindow_session rfl, met]
    rfl
  have whole : (plainWindow fifteens).log reversed bridged =
      (arrange 0 joined.recState.keys).map fun wk => ⟨wk, joined.recState.getAll wk⟩ := rfl
  rw [whole, state, met]
  decide +kernel

end Examples

end WindowOperator

end Weibo
