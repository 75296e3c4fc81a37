import Weibo.Lib.Grouped
import Weibo.Operator.OperatorSnapshots
import Weibo.Operator.PerKey

/-!
# Runs of a windowed reduce

Behind a window operator the reduce operator keeps one accumulator per key and window, and evicts
those that ended before the frontier. `Ledger` is the abstract operator: it keeps the records behind
each accumulator, and the accumulators are the folds of those records.
-/

namespace Weibo

open List Option AList Bool Record Int

open Chain (Runs)
open Record (data_append data_cons data_singleton isMarker)

/-- What the texts of `time.RFC3339Nano` guarantee for times that fit 64 bits. -/
structure TimeText.Exact [TimeText] : Prop where
  reads : ∀ t : Time, t.unixNano = t → TimeText.parse (TimeText.format t) = some t
  plain : ∀ t : Time, t.unixNano = t → slash ∉ TimeText.format t

@[reducible]
def unaryTimeText : TimeText where
  format t := if 0 ≤ t then replicate t.toNat 1 else replicate (-t).toNat 0
  parse text := if text.head? = some 0 then some (-(text.length : Int)) else some text.length

theorem unaryTimeText_exact : @TimeText.Exact unaryTimeText := by
  have written : ∀ t, unaryTimeText.format t =
      if 0 ≤ t then replicate t.toNat 1 else replicate (-t).toNat 0 := fun _ => rfl
  have read : ∀ text, unaryTimeText.parse text =
      if text.head? = some 0 then some (-(text.length : Int)) else some text.length := fun _ => rfl
  refine @TimeText.Exact.mk unaryTimeText (fun t _ => ?_) fun t _ => ?_
  · rw [written, read]
    split
    next ahead =>
      have other : (replicate t.toNat (1 : UInt8)).head? ≠ some 0 := by
        rw [List.head?_replicate]
        split <;> simp
      rw [if_neg other, length_replicate]
      exact congrArg some (toNat_of_nonneg ahead)
    next behind =>
      have negative : 0 < -t := neg_pos_of_neg (not_le.1 behind)
      have size : ((-t).toNat : Int) = -t := toNat_of_nonneg (le_of_lt negative)
      have first : (replicate (-t).toNat (0 : UInt8)).head? = some 0 := by
        rw [List.head?_replicate, if_neg]
        intro zero
        rw [zero] at size
        exact absurd size (ne_of_lt negative)
      rw [if_pos first, length_replicate, size]
      exact congrArg some (neg_neg t)
  · rw [written, slash]
    split <;> simp [mem_replicate]

def WindowKey.Fits (wk : WindowKey) : Prop :=
  Time.unixNano wk.start = wk.start ∧ Time.unixNano wk.stop = wk.stop

theorem splitLastSlash_append (front : Bytes) {last : Bytes} (absent : slash ∉ last) :
    splitLastSlash (front ++ slash :: last) = some (front, last) := by
  have other : ∀ b ∈ last.reverse, (b != slash) = true := by
    intro b mem
    have inside : b ∈ last := mem_reverse.1 mem
    exact bne_iff_ne.2 fun same => absent (same ▸ inside)
  have reversed : (front ++ slash :: last).reverse = last.reverse ++ slash :: front.reverse := by
    simp
  rw [splitLastSlash, reversed, span_eq_takeWhile_dropWhile,
    takeWhile_append_of_pos other, dropWhile_append_of_pos other]
  simp

namespace WindowKey

variable [TimeText] {wk other : WindowKey}

theorem stateKeyWindowEnd_text (texts : TimeText.Exact) (fits : wk.Fits) :
    stateKeyWindowEnd wk.text = some wk.stop := by
  have shape : wk.text = (wk.key ++ slash :: TimeText.format wk.start) ++
      slash :: TimeText.format wk.stop := by simp [text]
  rw [stateKeyWindowEnd, shape, splitLastSlash_append _ (texts.plain _ fits.2)]
  simp [splitLastSlash_append _ (texts.plain _ fits.1), texts.reads _ fits.1, texts.reads _ fits.2]

theorem text_injective (texts : TimeText.Exact) (fits : wk.Fits) (fits' : other.Fits)
    (same : wk.text = other.text) : wk = other := by
  have shape : ∀ wk : WindowKey, wk.text = (wk.key ++ slash :: TimeText.format wk.start) ++
      slash :: TimeText.format wk.stop := fun wk => by simp [text]
  have outer := congrArg splitLastSlash same
  rw [shape, shape, splitLastSlash_append _ (texts.plain _ fits.2),
    splitLastSlash_append _ (texts.plain _ fits'.2)] at outer
  obtain ⟨front, stop⟩ := Prod.mk.inj (some.inj outer)
  have inner := congrArg splitLastSlash front
  rw [splitLastSlash_append _ (texts.plain _ fits.1),
    splitLastSlash_append _ (texts.plain _ fits'.1)] at inner
  obtain ⟨key, start⟩ := Prod.mk.inj (some.inj inner)
  have read : ∀ {t u : Time}, t.unixNano = t → u.unixNano = u →
      TimeText.format t = TimeText.format u → t = u := by
    intro t u fits fits' same
    have parsed := congrArg TimeText.parse same
    rw [texts.reads t fits, texts.reads u fits'] at parsed
    exact some.inj parsed
  have starts := read fits.1 fits'.1 start
  have stops := read fits.2 fits'.2 stop
  cases wk
  cases other
  cases key
  cases starts
  cases stops
  rfl

end WindowKey

/-! ## The window of a record -/

section Window

variable [TimeText] {wk : WindowKey} {r : Record}

def windowOf (r : Record) : Option WindowKey := do
  let start ← (r.header "window_start").bind TimeText.parse
  let stop ← (r.header "window_end").bind TimeText.parse
  some ⟨r.key, start, stop⟩

structure Windowed (wk : WindowKey) (r : Record) : Prop where
  key : r.key = wk.key
  start : r.header "window_start" = some (TimeText.format wk.start)
  stop : r.header "window_end" = some (TimeText.format wk.stop)
  fits : wk.Fits

theorem Windowed.windowOf (windowed : Windowed wk r)
    (texts : TimeText.Exact) : windowOf r = some wk := by
  simp [Weibo.windowOf, windowed.start, windowed.stop, windowed.key,
    texts.reads _ windowed.fits.1, texts.reads _ windowed.fits.2]

theorem Windowed.stateKey (windowed : Windowed wk r) : stateKey r = wk.text := by
  simp [Weibo.stateKey, windowed.start, windowed.stop, windowed.key, WindowKey.text]

theorem windowed_tag (own : r.key = wk.key) (fits : wk.Fits) (allowed : Duration) :
    Windowed wk (tagWithWindowAndLateness r wk.window allowed) := by
  have headers : ∀ name, (tagWithWindowAndLateness r wk.window allowed).header name =
      (if allowed > 0 then
        ((r.withHeader "window_start" (TimeText.format wk.start)).withHeader "window_end"
          (TimeText.format wk.stop)).withHeader "window_allowed_lateness_nanos"
            (toString allowed).toUTF8.toList
      else (r.withHeader "window_start" (TimeText.format wk.start)).withHeader "window_end"
        (TimeText.format wk.stop)).header name := fun name => rfl
  refine ⟨own, ?_, ?_, fits⟩
  · rw [headers]
    split <;> simp [header_withHeader]
  · rw [headers]
    split <;> simp [header_withHeader]

theorem Windowed.shownFrontier (windowed : Windowed wk r) (texts : TimeText.Exact) :
    ∃ frontier, shownFrontier r = some frontier ∧ frontier ≤ wk.stop := by
  have nonneg : (0 : Int) ≤ windowAllowedLateness r := by
    simp only [windowAllowedLateness]
    cases parsed : (r.header "window_allowed_lateness_nanos").bind parsePositive with
    | none => exact le_refl _
    | some n =>
      obtain ⟨text, -, read⟩ := bind_eq_some_iff.1 parsed
      simp only [parsePositive, ite_none_left_eq_some, ite_none_right_eq_some,
        some.injEq] at read
      obtain ⟨-, -, rfl⟩ := read
      exact natCast_nonneg _
  have shown : Weibo.shownFrontier r = some (if windowAllowedLateness r > 0 then
      wk.stop - windowAllowedLateness r + 1 else wk.stop - windowAllowedLateness r) := by
    simp [Weibo.shownFrontier, windowed.stop, texts.reads _ windowed.fits.2]
  refine ⟨_, shown, ?_⟩
  split
  next positive =>
    have later : (1 : Int) ≤ windowAllowedLateness r := positive
    show wk.stop - windowAllowedLateness r + 1 ≤ wk.stop
    omega
  · exact sub_le_self _ nonneg

end Window

/-! ## The abstract operator -/

structure Ledger where
  frontier : Time := Time.zero
  live : WindowKey → List Record := fun _ => []

namespace Ledger

variable [TimeText]

def add (ledger : Ledger) (r : Record) (wk : WindowKey) : List Record :=
  if windowOf r = some wk then ledger.live wk ++ [r] else ledger.live wk

/-- Read a record: its window gets it, and if it shows a later frontier than any before, the
windows that ended before that frontier are forgotten. -/
def read (ledger : Ledger) (r : Record) : Ledger :=
  match shownFrontier r with
  | some frontier =>
    if frontier > ledger.frontier then
      ⟨frontier, fun wk => if wk.stop < frontier then [] else ledger.add r wk⟩
    else ⟨ledger.frontier, ledger.add r⟩
  | none => ⟨ledger.frontier, ledger.add r⟩

def readAll (ledger : Ledger) (records : List Record) : Ledger := records.foldl read ledger

@[simp]
theorem readAll_nil (ledger : Ledger) : ledger.readAll [] = ledger := rfl

@[simp]
theorem readAll_append (ledger : Ledger) (first second : List Record) :
    ledger.readAll (first ++ second) = (ledger.readAll first).readAll second :=
  foldl_append

@[simp]
theorem readAll_singleton (ledger : Ledger) (r : Record) : ledger.readAll [r] = ledger.read r := rfl

def highest (records : List Record) : Time := (records.filterMap shownFrontier).foldl max Time.zero

theorem frontier_readAll
    (records : List Record) : (readAll {} records).frontier = highest records := by
  induction records using reverseRecOn with
  | nil => rfl
  | append_singleton records r ih =>
    rw [readAll_append, readAll_singleton, highest, filterMap_append, foldl_append,
      ← highest, ← ih, read]
    cases shown : shownFrontier r with
    | none => simp [shown]
    | some frontier =>
      simp only [filterMap_cons, filterMap_nil, shown, foldl_cons, foldl_nil]
      split
      next later =>
        exact (max_eq_right (le_of_lt later)).symm
      next earlier =>
        exact (max_eq_left (not_lt.1 earlier)).symm

def recordsOf (wk : WindowKey) (records : List Record) : List Record :=
  records.filter fun r => decide (windowOf r = some wk)

@[simp]
theorem recordsOf_append (wk : WindowKey) (first second : List Record) :
    recordsOf wk (first ++ second) = recordsOf wk first ++ recordsOf wk second :=
  filter_append ..

theorem recordsOf_last {wk : WindowKey} {z : Record} (own : windowOf z = some wk)
    (front : List Record) {rest : List Record} (last : recordsOf wk rest = []) :
    recordsOf wk (front ++ z :: rest) = recordsOf wk front ++ [z] := by
  have first : recordsOf wk (z :: rest) = z :: recordsOf wk rest := by simp [recordsOf, own]
  rw [recordsOf_append, first, last]

end Ledger

/-! ## Accumulators as folds -/

/-- The accumulator a reduce operator stores for records: `none` before the first one, and an
empty one instead of nil. Fails when the function panics. -/
def ReduceFn.folded (fn : ReduceFn) (records : List Record) : Option (Option Bytes) :=
  records.foldlM (fun accum r => (fn accum r).map fun result => some (result.getD [])) none

theorem ReduceFn.folded_concat (fn : ReduceFn) (records : List Record) (r : Record) :
    fn.folded (records ++ [r]) = (fn.folded records).bind fun accum =>
      (fn accum r).map fun result => some (result.getD []) := by
  simp [folded, foldlM_append]

theorem ReduceFn.folded_isSome {fn : ReduceFn} {first rest : List Record}
    (folds : (fn.folded (first ++ rest)).isSome = true) : (fn.folded first).isSome = true := by
  rw [folded, foldlM_append] at folds
  rw [folded]
  cases result : first.foldlM (fun accum r => (fn accum r).map fun result => some (result.getD []))
      none with
  | none =>
    rw [result] at folds
    cases folds
  | some accum => rfl

theorem ReduceFn.folded_none {fn : ReduceFn} {records : List Record}
    (folds : fn.folded records = some none) : records = [] := by
  induction records using reverseRecOn with
  | nil => rfl
  | append_singleton records r _ =>
    rw [folded_concat] at folds
    obtain ⟨accum, -, result⟩ := bind_eq_some_iff.1 folds
    obtain ⟨value, -, nothing⟩ := map_eq_some_iff.1 result
    cases nothing

namespace ReduceOperator

variable [TimeText] {op after q : ReduceOperator} {r : Record} {sends input sent : List Record}

def reduces : Chain.Processor ReduceOperator Record where
  react op _ r := op.process r
  flush op _ := .send [] op
  expires _ := false

theorem process_emits (data : r.isMarker = false) (reacts : op.process r = .send sends after) :
    ∃ newAccum, op.fn (op.values.lookup (stateKey r)) r = some newAccum ∧
      sends = [emitted r (newAccum.getD [])] ∧
      after = { op with
        values := op.values.insert (stateKey r) (newAccum.getD []) }.advanceWindowFrontier r := by
  simp only [isMarker, or_eq_false_iff] at data
  simp only [process, data.1, data.2, false_eq_true, if_false] at reacts
  generalize op.fn (op.values.lookup (stateKey r)) r = reduced at reacts
  cases reduced with
  | none => cases reacts
  | some newAccum =>
    cases reacts
    exact ⟨newAccum, rfl, rfl, rfl⟩

omit [TimeText] in
theorem lookup_eraseAll (values : ValueState Bytes Bytes) (stale : List Bytes) (sk : Bytes) :
    (stale.foldl (fun values sk => values.erase sk) values).lookup sk =
      if sk ∈ stale then none else values.lookup sk := by
  induction stale generalizing values with
  | nil => simp
  | cons first rest ih =>
    rw [foldl_cons, ih]
    by_cases same : sk = first
    · subst same
      simp
    · simp [same, lookup_erase_ne same]

theorem lookup_evictClosedWindows (op : ReduceOperator) {sk : Bytes} {stop : Time}
    (ends : stateKeyWindowEnd sk = some stop) : op.evictClosedWindows.values.lookup sk =
      if stop < op.windowFrontier then none else op.values.lookup sk := by
  simp only [evictClosedWindows, lookup_eraseAll, mem_filter, ends, any_some,
    decide_eq_true_eq]
  by_cases before : stop < op.windowFrontier
  · by_cases held : sk ∈ op.values.keys
    · simp [before, held]
    · have nothing : op.values.lookup sk = none := lookup_eq_none.2 held
      simp [before, nothing]
  · simp [before]

structure Represents (ledger : Ledger) (op : ReduceOperator) : Prop where
  frontier : op.windowFrontier = ledger.frontier
  values : ∀ wk : WindowKey, wk.Fits →
    op.fn.folded (ledger.live wk) = some (op.values.lookup wk.text)

theorem represents_start (fn : ReduceFn) : Represents {} { fn := fn } where
  frontier := rfl
  values _ _ := rfl

variable {ledger : Ledger} {wk : WindowKey}

theorem Represents.process (represents : Represents ledger op)
    (texts : TimeText.Exact) (windowed : Windowed wk r) (data : r.isMarker = false)
    (reacts : op.process r = .send sends after) :
    Represents (ledger.read r) after ∧ after.fn = op.fn ∧ ∃ value,
      sends = [emitted r value] ∧ op.fn.folded (ledger.live wk ++ [r]) = some (some value) := by
  obtain ⟨newAccum, reduced, rfl, rfl⟩ := process_emits data reacts
  rw [windowed.stateKey] at reduced ⊢
  have own : op.fn.folded (ledger.live wk ++ [r]) = some (some (newAccum.getD [])) := by
    rw [ReduceFn.folded_concat, represents.values wk windowed.fits]
    simp [reduced]
  -- the accumulators before anything is evicted
  have stored : ∀ other : WindowKey, other.Fits → op.fn.folded (ledger.add r other) =
      some ((op.values.insert wk.text (newAccum.getD [])).lookup other.text) := by
    intro other fits
    by_cases same : other = wk
    · subst same
      simp [Ledger.add, windowed.windowOf texts, own]
    · have differs : other.text ≠ wk.text := fun clash =>
        same (WindowKey.text_injective texts fits windowed.fits clash)
      have elsewhere : some wk ≠ some other := fun clash => same (some.inj clash).symm
      rw [lookup_insert_ne differs, Ledger.add, windowed.windowOf texts, if_neg elsewhere]
      exact represents.values other fits
  obtain ⟨frontier, shown, -⟩ := windowed.shownFrontier texts
  refine ⟨?_, advanceWindowFrontier_fn _ _, _, rfl, own⟩
  rw [advanceWindowFrontier_eq, Ledger.read, shown]
  simp only [represents.frontier]
  split
  · refine ⟨rfl, fun other fits => ?_⟩
    rw [lookup_evictClosedWindows _ (WindowKey.stateKeyWindowEnd_text texts fits)]
    simp only
    split
    · rfl
    · exact stored other fits
  · exact ⟨rfl, stored⟩

/-! ## Runs -/

theorem process_windows (reacts : op.process r = .send sends after) :
    (data sends).map windowOf = (data [r]).map windowOf := by
  cases kind : r.isMarker with
  | true =>
    cases (process_marker op kind).symm.trans reacts
    rfl
  | false =>
    obtain ⟨newAccum, -, rfl, -⟩ := process_emits kind reacts
    rw [data_singleton kind, data_singleton rfl]
    rfl

theorem runs_windows (runs : Runs reduces op input sent q) :
    (data sent).map windowOf = (data input).map windowOf := by
  induction runs with
  | nil p => rfl
  | @cons p m q r rest sends output choice reacts _ ih =>
    rw [data_cons, data_append, map_append, map_append, ih,
      process_windows reacts]

theorem Represents.runs (represents : Represents ledger op) (texts : TimeText.Exact)
    (windowed : ∀ r ∈ data input, ∃ wk, Windowed wk r) (runs : Runs reduces op input sent q) :
    Represents (ledger.readAll (data input)) q ∧ q.fn = op.fn := by
  induction runs generalizing ledger with
  | nil p => exact ⟨represents, rfl⟩
  | @cons p m q r rest sends output choice reacts _ ih =>
    rw [data_cons] at windowed ⊢
    have later : ∀ r ∈ data rest, ∃ wk, Windowed wk r := fun r mem =>
      windowed r (mem_append_right _ mem)
    cases kind : r.isMarker with
    | true =>
      have passes : p.process r = .send sends m := reacts
      cases (process_marker p kind).symm.trans passes
      rw [data_singleton_marker kind]
      exact ih represents later
    | false =>
      rw [data_singleton kind] at windowed ⊢
      obtain ⟨wk, own⟩ := windowed r (by simp)
      obtain ⟨next, same, -⟩ := represents.process texts own kind reacts
      obtain ⟨last, fn⟩ := ih next later
      rw [Ledger.readAll_append]
      exact ⟨last, fn.trans same⟩

def lastValue (wk : WindowKey) (output : List Record) : Option Bytes :=
  (Ledger.recordsOf wk (data output)).getLast?.map value

theorem lastValue_append (wk : WindowKey) (first second : List Record) :
    lastValue wk (first ++ second) = (lastValue wk second).or (lastValue wk first) := by
  simp only [lastValue, data_append, Ledger.recordsOf_append, List.getLast?_append]
  cases (Ledger.recordsOf wk (data second)).getLast? <;> simp

theorem lastValue_none (runs : Runs reduces op input sent q)
    (absent : Ledger.recordsOf wk (data input) = []) : lastValue wk sent = none := by
  have windows := runs_windows runs
  have nothing : Ledger.recordsOf wk (data sent) = [] := by
    refine filter_eq_nil_iff.2 fun r mem named => ?_
    have here : windowOf r ∈ (data input).map windowOf :=
      windows ▸ List.mem_map_of_mem mem
    obtain ⟨source, inside, same⟩ := List.mem_map.1 here
    exact filter_eq_nil_iff.1 absent source inside (by simpa [same] using named)
  rw [lastValue, nothing]
  rfl

theorem Represents.lastValue (represents : Represents ledger op)
    (texts : TimeText.Exact) (windowed : ∀ r ∈ data input, ∃ wk, Windowed wk r)
    (runs : Runs reduces op input sent q) {front rest : List Record} {z : Record}
    (split : data input = front ++ z :: rest) (own : windowOf z = some wk)
    (last : Ledger.recordsOf wk rest = []) : ∃ value, lastValue wk sent = some value ∧
      op.fn.folded ((ledger.readAll front).live wk ++ [z]) = some (some value) := by
  induction runs generalizing ledger front with
  | nil p => simp at split
  | @cons p m q r input sends output choice reacts runs ih =>
    rw [data_cons] at windowed split
    have later : ∀ r ∈ data input, ∃ wk, Windowed wk r := fun r mem =>
      windowed r (mem_append_right _ mem)
    rw [lastValue_append]
    cases kind : r.isMarker with
    | true =>
      have passes : p.process r = .send sends m := reacts
      cases (process_marker p kind).symm.trans passes
      rw [data_singleton_marker kind] at split
      obtain ⟨value, emits, folds⟩ := ih represents later split
      exact ⟨value, by rw [emits, some_or], folds⟩
    | false =>
      rw [data_singleton kind] at windowed split
      obtain ⟨here, tagged⟩ := windowed r (by simp)
      obtain ⟨next, same, value, rfl, folds⟩ := represents.process texts tagged kind reacts
      cases front with
      | nil =>
        obtain ⟨rfl, rfl⟩ := cons.inj split
        obtain rfl : here = wk := some.inj ((tagged.windowOf texts).symm.trans own)
        refine ⟨value, ?_, folds⟩
        have named : windowOf (emitted r value) = some here := own
        rw [lastValue_none runs last, none_or, ReduceOperator.lastValue,
          data_singleton rfl, Ledger.recordsOf, filter_singleton, named]
        simp [emitted]
      | cons first front =>
        obtain ⟨rfl, rest⟩ := cons.inj split
        obtain ⟨value, emits, folds⟩ := ih next later rest
        refine ⟨value, by rw [emits, some_or], ?_⟩
        rw [← same]
        exact folds

/-! ## Accumulators that are evicted too early -/

/-- Between two records of one key and window there is none that raises the frontier above the
end of that window. -/
def Undisturbed (reached : List Record) : Prop :=
  ∀ before x after, data reached = before ++ x :: after →
    ∀ frontier, shownFrontier x = some frontier → Ledger.highest before < frontier →
    ∀ y ∈ before, ∀ z ∈ after, windowOf y = windowOf z →
    ∀ wk, windowOf z = some wk → frontier ≤ wk.stop

variable {reached output : List Record}

theorem Undisturbed.live (undisturbed : Undisturbed reached) (texts : TimeText.Exact)
    (windowed : ∀ r ∈ data reached, ∃ wk, Windowed wk r) {front rest : List Record}
    (split : data reached = front ++ rest) {z : Record} (later : z ∈ rest) (own :
    windowOf z = some wk) : (Ledger.readAll {} front).live wk = Ledger.recordsOf wk front := by
  induction front using reverseRecOn generalizing rest with
  | nil => rfl
  | append_singleton front x ih =>
    rw [append_assoc, singleton_append] at split
    have before := ih split (.tail _ later)
    have added : (Ledger.readAll {} front).add x wk = Ledger.recordsOf wk (front ++ [x]) := by
      rw [Ledger.recordsOf_append, Ledger.add, before, Ledger.recordsOf, Ledger.recordsOf,
        filter_singleton]
      by_cases named : windowOf x = some wk <;> simp [named]
    rw [Ledger.readAll_append, Ledger.readAll_singleton, Ledger.read]
    cases shown : shownFrontier x with
    | none => exact added
    | some frontier =>
      simp only
      split
      next raises =>
        simp only
        split
        next closed =>
          -- the window ended before the frontier, so none of its records can have come yet
          rw [Ledger.frontier_readAll] at raises
          refine (filter_eq_nil_iff.2 fun y mem named => ?_).symm
          have same : windowOf y = some wk := of_decide_eq_true named
          rcases mem_append.1 mem with earlier | here
          · have going := undisturbed front x rest split frontier shown raises y earlier z later
              (same.trans own.symm) wk own
            exact absurd closed (not_lt.2 going)
          · obtain rfl := mem_singleton.1 here
            obtain ⟨mine, tagged⟩ := windowed y (by simp [split])
            obtain rfl : mine = wk := some.inj ((tagged.windowOf texts).symm.trans same)
            obtain ⟨own', again, bound⟩ := tagged.shownFrontier texts
            obtain rfl : frontier = own' := some.inj (shown.symm.trans again)
            exact absurd closed (not_lt.2 bound)
        · exact added
      · exact added

theorem undisturbed_of_grouped (texts : TimeText.Exact)
    (windowed : ∀ r ∈ data reached, ∃ wk, Windowed wk r)
    (grouped : Grouped windowOf (data reached)) : Undisturbed reached := by
  intro before x after split frontier shown _ y early z late same wk named
  have between := grouped.between split early late same
  obtain ⟨own, tagged⟩ := windowed x (by simp [split])
  obtain rfl : own = wk := by
    have window : windowOf x = some wk := between.trans (same.trans named)
    exact some.inj ((tagged.windowOf texts).symm.trans window)
  obtain ⟨mine, again, bound⟩ := tagged.shownFrontier texts
  obtain rfl : frontier = mine := some.inj (shown.symm.trans again)
  exact bound

omit [TimeText] in
theorem exists_last {holds : Record → Bool} {records : List Record}
    (given : records.filter holds ≠ []) : ∃ front z rest, records = front ++ z :: rest ∧
    holds z = true ∧ rest.filter holds = [] := by
  induction records using reverseRecOn with
  | nil => simp at given
  | append_singleton records r ih =>
    cases here : holds r with
    | true => exact ⟨records, r, [], rfl, here, rfl⟩
    | false =>
      rw [filter_append, filter_singleton, here] at given
      obtain ⟨front, z, rest, rfl, named, nothing⟩ := ih (by simpa using given)
      exact ⟨front, z, rest ++ [r], by simp, named, by simp [nothing, here]⟩

theorem Undisturbed.folds (undisturbed : Undisturbed reached) (texts : TimeText.Exact)
    (windowed : ∀ r ∈ data reached, ∃ wk, Windowed wk r) {fn : ReduceFn}
    (runs : Runs reduces { fn := fn } reached output q) (wk : WindowKey) :
    fn.folded (Ledger.recordsOf wk (data reached)) = some (lastValue wk output) := by
  by_cases absent : Ledger.recordsOf wk (data reached) = []
  · rw [absent, lastValue_none runs absent]
    rfl
  · obtain ⟨front, z, rest, split, named, last⟩ := exists_last absent
    have own : windowOf z = some wk := of_decide_eq_true named
    obtain ⟨value, emits, folds⟩ :=
      (represents_start fn).lastValue texts windowed runs split own last
    have held := undisturbed.live texts windowed split mem_cons_self own
    rw [emits, split, Ledger.recordsOf_last own front last, ← held]
    exact folds

def counting : ReduceFn := fun accum _ => some (some (0 :: accum.getD []))

theorem exists_runs (total : ∀ accum r, (op.fn accum r).isSome = true) (input : List Record) :
    ∃ sent q, Runs reduces op input sent q := by
  induction input generalizing op with
  | nil => exact ⟨[], op, .nil op⟩
  | cons r rest ih =>
    cases kind : r.isMarker with
    | true =>
      obtain ⟨sent, q, runs⟩ := ih total
      exact ⟨_, q, .cons 0 (process_marker op kind) runs⟩
    | false =>
      obtain ⟨-, after, next, same⟩ := process_data total kind
      have still : ∀ accum r, (after.fn accum r).isSome = true := by
        rw [same]
        exact total
      obtain ⟨sent, q, runs⟩ := ih still
      exact ⟨_, q, .cons 0 (Reaction.eq_send next) runs⟩

theorem Undisturbed.exists_runs (undisturbed : Undisturbed reached) (texts : TimeText.Exact)
    (windowed : ∀ r ∈ data reached, ∃ wk, Windowed wk r) {fn : ReduceFn}
    (folds : ∀ wk, (fn.folded (Ledger.recordsOf wk (data reached))).isSome = true) :
    ∃ output q, Runs reduces { fn := fn } reached output q := by
  suffices general : ∀ front rest, reached = front ++ rest → ∃ output q,
      Runs reduces { fn := fn } front output q from general reached [] (append_nil _).symm
  intro front
  induction front using reverseRecOn with
  | nil => exact fun rest _ => ⟨[], _, .nil _⟩
  | append_singleton front r ih =>
    intro rest split
    rw [append_assoc, singleton_append] at split
    obtain ⟨output, q, runs⟩ := ih (r :: rest) split
    have reads : ∃ sends after, q.process r = .send sends after := by
      cases kind : r.isMarker with
      | true => exact ⟨_, _, process_marker q kind⟩
      | false =>
        have parts : data reached = data front ++ r :: data rest := by
          rw [split, data_append, data_cons, data_singleton kind]
          rfl
        obtain ⟨wk, tagged⟩ := windowed r (by simp [parts])
        have named := tagged.windowOf texts
        obtain ⟨here, same⟩ := (represents_start fn).runs texts
          (fun r mem => windowed r (by simp [parts, mem])) runs
        have live := undisturbed.live texts windowed parts mem_cons_self named
        -- the fold of the window up to `r` is a part of the fold of the whole window
        have whole := folds wk
        have first : Ledger.recordsOf wk (r :: data rest) =
            [r] ++ Ledger.recordsOf wk (data rest) := by simp [Ledger.recordsOf, named]
        rw [parts, Ledger.recordsOf_append, first, ← append_assoc, ← live] at whole
        have given := ReduceFn.folded_isSome whole
        rw [ReduceFn.folded_concat] at given
        have accum := here.values wk tagged.fits
        rw [same] at accum
        rw [accum, bind_some, isSome_map, ← tagged.stateKey] at given
        obtain ⟨newAccum, reduced⟩ := isSome_iff_exists.1 given
        simp only [isMarker, or_eq_false_iff] at kind
        simp only [process, kind.1, kind.2, false_eq_true, if_false, same]
        rw [reduced]
        exact ⟨_, _, rfl⟩
    obtain ⟨sends, after, reacts⟩ := reads
    have one : Runs reduces q [r] (sends ++ []) after := .cons 0 reacts (.nil after)
    exact ⟨_, after, runs.append one⟩

end ReduceOperator

end Weibo
