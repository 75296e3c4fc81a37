import Mathlib.Algebra.Order.BigOperators.Group.List
import Mathlib.Algebra.Order.Ring.Int
import Mathlib.Algebra.Order.Ring.Nat
import Weibo.Types.Record

/-!
# The marker probe

`TxnKafkaSink.WasCommitted` takes the last stable offset of every marker partition, then fetches
each partition until it has passed that boundary. What the Kafka client answers is a parameter;
`process` stands for `kgo.ProcessFetchPartition`.
-/

namespace Weibo.Sink.MarkerProbe

open List Option Function Bool

structure Marker where
  offset : Int
  key : Bytes
  value : Bytes
  deriving DecidableEq

structure FetchPartition where
  records : List Marker
  lastStableOffset : Int

structure RawPartition where
  partition : Int
  process : Int → Option (FetchPartition × Int)

/-- One element of `RequestSharded`. -/
inductive Shard where
  | failed
  | unexpected
  | response (parts : List RawPartition)

/-- `kadm.ListedOffset` of a partition; `none` when its `Err` is set. -/
structure ListedOffset where
  partition : Int
  offset : Option Int

structure Answers where
  client : Bool := true
  stable : Option (List ListedOffset)
  starts : Option (Int → Option Int)
  metadata : Option Bool := some true
  fetch : Nat → (Int → Int) → List Shard

inductive ProbeError where
  | client
  | stableOffsets
  | partition (p : Int)
  | noPartitions
  | startOffsets
  | startOffset (p : Int)
  | metadata
  | noMetadata
  | fetch
  | unexpectedResponse
  | fetchPartition (p : Int)
  | noProgress

/-- `inspectMarkerPartition`: whether the marker was found, and whether the boundary was reached. -/
def inspectMarkerPartition (part : FetchPartition) (boundary : Int) (txnID checkpointID : Bytes) :
    Bool × Bool :=
  if part.records.any fun rec => decide (rec.key = txnID ∧ rec.value = checkpointID) then
    (true, true)
  else
    let lastOffset := (part.records.getLast?.map Marker.offset).getD (-1)
    (false, decide (lastOffset + 1 ≥ boundary) ||
      (part.records.isEmpty && decide (part.lastStableOffset ≥ boundary)))

def allMarkerPartitionsDone (boundaries : List (Int × Int)) (positions : Int → Int) : Bool :=
  boundaries.all fun (partition, boundary) => !decide (positions partition < boundary)

structure Scan where
  positions : Int → Int
  found : Bool := false
  progressed : Bool := false

def scanPartition (boundaries : List (Int × Int)) (txnID id : Bytes) (s : Scan)
    (raw : RawPartition) : Except ProbeError Scan :=
  let position := s.positions raw.partition
  match raw.process position with
  | none => .error (.fetchPartition raw.partition)
  | some (part, next) =>
    let boundary := (boundaries.lookup raw.partition).getD 0
    let s :=
      if (inspectMarkerPartition part boundary txnID id).1 then { s with found := true } else s
    if next > position then
      .ok { s with positions := update s.positions raw.partition next, progressed := true }
    else .ok s

def scanShard (boundaries : List (Int × Int)) (txnID id : Bytes) (s : Scan) :
    Shard → Except ProbeError Scan
  | .failed => .error .fetch
  | .unexpected => .error .unexpectedResponse
  | .response parts => parts.foldlM (scanPartition boundaries txnID id) s

def scan (boundaries : List (Int × Int)) (txnID id : Bytes) (shards : List Shard)
    (positions : Int → Int) : Except ProbeError Scan :=
  shards.foldlM (scanShard boundaries txnID id) { positions }

/-- The loop of `WasCommitted`, for a number of rounds; `none` when they do not suffice. -/
def probe (boundaries : List (Int × Int)) (txnID id : Bytes)
    (fetch : Nat → (Int → Int) → List Shard) :
    Nat → Nat → (Int → Int) → Option (Except ProbeError Bool)
  | 0, _, _ => none
  | rounds + 1, n, positions =>
    match scan boundaries txnID id (fetch n positions) positions with
    | .error e => some (.error e)
    | .ok s =>
      if s.found then some (.ok true)
      else if allMarkerPartitionsDone boundaries s.positions then some (.ok false)
      else if !s.progressed then some (.error .noProgress)
      else probe boundaries txnID id fetch rounds (n + 1) s.positions

def boundariesOf (ends : List ListedOffset) : List (Int × Int) :=
  ends.filterMap fun lo => if lo.partition ≥ 0 then lo.offset.map fun offset =>
    (lo.partition, offset) else none

def takeStart (starts : Int → Option Int) (positions : Int → Int) (entry : Int × Int) :
    Except ProbeError (Int → Int) :=
  match starts entry.1 with
  | none => .error (.startOffset entry.1)
  | some offset => .ok (update positions entry.1 offset)

def startsOf (starts : Int → Option Int) (boundaries : List (Int × Int)) :
    Except ProbeError (Int → Int) :=
  boundaries.foldlM (takeStart starts) fun _ => 0

/-- The calls of `WasCommitted` before the scan: the boundaries and the start offsets. -/
def prepare (answers : Answers) : Except ProbeError (List (Int × Int) × (Int → Int)) :=
  if !answers.client then .error .client else
  match answers.stable with
  | none => .error .stableOffsets
  | some ends =>
    match ends.find? fun lo => lo.offset.isNone with
    | some lo => .error (.partition lo.partition)
    | none =>
      if (boundariesOf ends).isEmpty then .error .noPartitions else
      match answers.starts with
      | none => .error .startOffsets
      | some starts =>
        match startsOf starts (boundariesOf ends), answers.metadata with
        | .error e, _ => .error e
        | .ok _, none => .error .metadata
        | .ok _, some false => .error .noMetadata
        | .ok positions, some true => .ok (boundariesOf ends, positions)

/-- `WasCommitted`, for a number of rounds. -/
def wasCommitted (answers : Answers) (txnID id : Bytes) (rounds : Nat) :
    Option (Except ProbeError Bool) :=
  match prepare answers with
  | .error e => some (.error e)
  | .ok (boundaries, positions) =>
    if allMarkerPartitionsDone boundaries positions then some (.ok false)
    else probe boundaries txnID id answers.fetch rounds 0 positions

/-! ## What the broker holds -/

abbrev Log := Int → Int → Option (Bytes × Bytes)

/-- A fetch returns the records of the log in the range that it passes. -/
def RawPartition.Honest (log : Log) (raw : RawPartition) : Prop :=
  ∀ position part next, raw.process position = some (part, next) → ∀ offset key value,
    ⟨offset, key, value⟩ ∈ part.records ↔
      position ≤ offset ∧ offset < next ∧ log raw.partition offset = some (key, value)

def Honest (log : Log) (boundaries : List (Int × Int)) (fetch : Nat → (Int → Int) → List Shard) :
    Prop :=
  ∀ n positions parts, .response parts ∈ fetch n positions → ∀ raw ∈ parts, raw.Honest log ∧
    ∃ boundary, (raw.partition, boundary) ∈ boundaries ∧ positions raw.partition < boundary

variable {log : Log} {boundaries : List (Int × Int)} {txnID id : Bytes} {start positions : Int →
    Int}
  {fetch : Nat → (Int → Int) → List Shard} {s t : Scan}

/-- The marker is in a partition that is probed. -/
def Present (log : Log) (boundaries : List (Int × Int)) (txnID id : Bytes) : Prop :=
  ∃ partition boundary offset, (partition, boundary) ∈ boundaries ∧
    log partition offset = some (txnID, id)

def Passed (log : Log) (start : Int → Int) (txnID id : Bytes) (positions : Int → Int) : Prop :=
  ∀ partition offset, start partition ≤ offset → offset < positions partition →
    log partition offset ≠ some (txnID, id)

structure Scanned (log : Log) (boundaries : List (Int × Int)) (start : Int → Int) (txnID id : Bytes)
    (positions : Int → Int) (s : Scan) : Prop where
  passed : s.found = false → Passed log start txnID id s.positions
  found : s.found = true → Present log boundaries txnID id ∧ s.progressed = true
  same : s.progressed = false → s.positions = positions
  grows : ∀ partition, positions partition ≤ s.positions partition
  progressed : s.progressed = true → ∃ partition boundary, (partition, boundary) ∈ boundaries ∧
    positions partition < boundary ∧ positions partition < s.positions partition

theorem foldlM_ok {σ α ε : Type} {holds : σ → Prop} {f : σ → α → Except ε σ} {items : List α}
    (keeps : ∀ s t, ∀ a ∈ items, holds s → f s a = .ok t → holds t) {s t : σ} (begins : holds s)
    (ends : items.foldlM f s = .ok t) : holds t := by
  induction items generalizing s with
  | nil =>
    cases ends
    exact begins
  | cons a rest ih =>
    rw [foldlM_cons] at ends
    cases step : f s a with rw [step] at ends
    | error e =>
      cases ends
    | ok middle =>
      exact ih (fun s t b mem => keeps s t b (.tail _ mem))
        (keeps s middle a mem_cons_self begins step) ends

variable {boundary : Int}

theorem inspect_iff {part : FetchPartition} :
    (inspectMarkerPartition part boundary txnID id).1 = true ↔
    ∃ offset, ⟨offset, txnID, id⟩ ∈ part.records := by
  have found : (inspectMarkerPartition part boundary txnID id).1 =
      part.records.any fun rec => decide (rec.key = txnID ∧ rec.value = id) := by
    rw [inspectMarkerPartition]
    split
    · next is => exact is.symm
    · next none => exact (eq_false_iff.2 none).symm
  rw [found, List.any_eq_true]
  constructor
  · rintro ⟨⟨offset, key, value⟩, mem, is⟩
    obtain ⟨rfl, rfl⟩ := of_decide_eq_true is
    exact ⟨offset, mem⟩
  · rintro ⟨offset, mem⟩
    exact ⟨_, mem, decide_eq_true ⟨rfl, rfl⟩⟩

theorem Scanned.partition (scanned : Scanned log boundaries start txnID id positions s)
    {raw : RawPartition} (honest : raw.Honest log) (asked : (raw.partition, boundary) ∈ boundaries)
    (behind : positions raw.partition < boundary)
    (step : scanPartition boundaries txnID id s raw = .ok t) :
    Scanned log boundaries start txnID id positions t := by
  simp only [scanPartition] at step
  split at step
  · cases step
  · next part next processed =>
    have holds := honest _ part next processed
    have grows (further : s.positions raw.partition < next) (p : Int) :
        s.positions p ≤ update s.positions raw.partition next p := by
      by_cases same : p = raw.partition
      · rw [same, update_self]
        exact le_of_lt further
      · rw [update_of_ne same]
    have moved (further : s.positions raw.partition < next) :
        positions raw.partition < update s.positions raw.partition next raw.partition := by
      rw [update_self]
      exact lt_of_le_of_lt (scanned.grows _) further
    by_cases matched :
      (inspectMarkerPartition part ((boundaries.lookup raw.partition).getD 0) txnID id).1 = true
    · -- The marker is behind the position, so that the round makes progress.
      obtain ⟨offset, mem⟩ := inspect_iff.1 matched
      obtain ⟨least, below, held⟩ := (holds _ _ _).1 mem
      have further := lt_of_le_of_lt least below
      rw [if_pos matched, if_pos further] at step
      cases step
      exact ⟨Bool.noConfusion, fun _ => ⟨⟨_, boundary, offset, asked, held⟩, rfl⟩, Bool.noConfusion,
        fun p => le_trans (scanned.grows p) (grows further p),
          fun _ => ⟨_, boundary, asked, behind, moved further⟩⟩
    · rw [if_neg matched] at step
      split at step
      · next further =>
        cases step
        refine ⟨fun nothing p offset least below held => ?_, fun is => ⟨(scanned.found is).1, rfl⟩,
          Bool.noConfusion, fun p => le_trans (scanned.grows p) (grows further p),
          fun _ => ⟨_, boundary, asked, behind, moved further⟩⟩
        rcases lt_or_ge offset (s.positions p) with old | new
        · exact scanned.passed nothing p offset least old held
        · by_cases same : p = raw.partition
          · subst same
            change offset < update s.positions raw.partition next raw.partition at below
            rw [update_self] at below
            exact matched (inspect_iff.2 ⟨offset, (holds _ _ _).2 ⟨new, below, held⟩⟩)
          · change offset < update s.positions raw.partition next p at below
            rw [update_of_ne same] at below
            exact absurd below (not_lt_of_ge new)
      · cases step
        exact scanned

theorem scanned_of_scan (honest : Honest log boundaries fetch)
    (passed : Passed log start txnID id positions) {n : Nat}
    (ends : scan boundaries txnID id (fetch n positions) positions = .ok t) :
    Scanned log boundaries start txnID id positions t := by
  refine foldlM_ok (fun s t shard asked scanned step => ?_)
    ⟨fun _ => passed, Bool.noConfusion, fun _ => rfl, fun _ => le_refl _, Bool.noConfusion⟩ ends
  cases shard with
  | failed | unexpected => cases step
  | response parts =>
    refine foldlM_ok (fun s t raw mem scanned step => ?_) scanned step
    obtain ⟨served, boundary, asked, behind⟩ := honest n positions parts asked raw mem
    exact scanned.partition served asked behind step

/-! ## The loop -/

def remaining (boundaries : List (Int × Int)) (positions : Int → Int) : Nat :=
  (boundaries.map fun x => (x.2 - positions x.1).toNat).sum

theorem Scanned.remaining_lt (scanned : Scanned log boundaries start txnID id positions s)
    (progressed : s.progressed = true) :
    remaining boundaries s.positions < remaining boundaries positions := by
  obtain ⟨p, boundary, mem, behind, further⟩ := scanned.progressed progressed
  refine sum_lt_sum _ _ (fun x _ => ?_) ⟨(p, boundary), mem, ?_⟩
  · have grows := scanned.grows x.1
    omega
  · change (boundary - s.positions p).toNat < (boundary - positions p).toNat
    omega

inductive Reaches (boundaries : List (Int × Int)) (txnID id : Bytes)
    (fetch : Nat → (Int → Int) → List Shard) : Nat → (Int → Int) → Nat → (Int → Int) → Prop
  | here (n : Nat) (positions : Int → Int) :
      Reaches boundaries txnID id fetch n positions n positions
  | later {n m : Nat} {positions last : Int → Int} {s : Scan}
      (scanned : scan boundaries txnID id (fetch n positions) positions = .ok s)
        (absent : s.found = false)
      (unfinished : allMarkerPartitionsDone boundaries s.positions = false)
        (progressed : s.progressed = true)
      (reaches : Reaches boundaries txnID id fetch (n + 1) s.positions m last) :
      Reaches boundaries txnID id fetch n positions m last

theorem done_iff : allMarkerPartitionsDone boundaries positions = true ↔
    ∀ partition boundary, (partition, boundary) ∈ boundaries → boundary ≤ positions partition := by
  simp [allMarkerPartitionsDone]

theorem Reaches.passed {n m : Nat} {last : Int → Int}
    (reaches : Reaches boundaries txnID id fetch n positions m last)
    (honest : Honest log boundaries fetch) (passed : Passed log start txnID id positions)
    (unfinished : allMarkerPartitionsDone boundaries positions = false) :
    Passed log start txnID id last ∧ allMarkerPartitionsDone boundaries last = false := by
  induction reaches with
  | here => exact ⟨passed, unfinished⟩
  | later scanned absent unfinished' _ _ ih =>
    exact ih ((scanned_of_scan honest passed scanned).passed absent) unfinished'

/-- A round that the loop reaches decides it. -/
theorem probe_of_reaches {n m : Nat} {last : Int → Int}
    (reaches : Reaches boundaries txnID id fetch n positions m last) (rounds : Nat) :
    ∃ more, rounds ≤ more ∧ ∃ left, rounds ≤ left ∧
      probe boundaries txnID id fetch (more + 1) n positions =
      probe boundaries txnID id fetch (left + 1) m last := by
  induction reaches with
  | here => exact ⟨rounds, le_rfl, rounds, le_rfl, rfl⟩
  | later scanned absent unfinished progressed _ ih =>
    obtain ⟨more, least, left, enough, same⟩ := ih
    refine ⟨more + 1, by omega, left, enough, ?_⟩
    rw [← same]
    simp [probe, scanned, absent, unfinished, progressed]

theorem probe_answers (honest : Honest log boundaries fetch)
    (passed : Passed log start txnID id positions)
    (n rounds : Nat) (enough : remaining boundaries positions < rounds) : ∃ result,
    (∀ more, rounds ≤ more → probe boundaries txnID id fetch more n positions = some result) ∧
      (result = .ok true → Present log boundaries txnID id) ∧
      (result = .ok false → ∀ partition boundary, (partition, boundary) ∈ boundaries → ∀ offset,
        start partition ≤ offset → offset < boundary →
          log partition offset ≠ some (txnID, id)) := by
  induction rounds generalizing n positions with
  | zero => exact absurd enough (Nat.not_lt_zero _)
  | succ rounds ih =>
    have first {result : Except ProbeError Bool} (returns : ∀ left, rounds ≤ left →
        probe boundaries txnID id fetch (left + 1) n positions = some result) (more : Nat)
        (least : rounds + 1 ≤ more) :
          probe boundaries txnID id fetch more n positions = some result := by
      obtain ⟨left, rfl⟩ : ∃ left, more = left + 1 := ⟨more - 1, by omega⟩
      exact returns left (by omega)
    cases outcome : scan boundaries txnID id (fetch n positions) positions with
    | error e =>
      exact ⟨.error e, first fun left _ => by simp only [probe, outcome], nofun, nofun⟩
    | ok s =>
      have scanned := scanned_of_scan honest passed outcome
      cases found : s.found with
      | true =>
        exact ⟨.ok true, first fun left _ =>
          by simp [probe, outcome, found], fun _ => (scanned.found found).1, nofun⟩
      | false =>
        cases done : allMarkerPartitionsDone boundaries s.positions with
        | true =>
          refine ⟨.ok false, first fun left _ => by simp [probe, outcome, found, done], nofun, ?_⟩
          intro _ p boundary mem offset least below
          exact scanned.passed found p offset least
            (below.trans_le (done_iff.1 done p boundary mem))
        | false =>
          cases progressed : s.progressed with
          | false =>
            exact ⟨.error .noProgress,
              first fun left _ => by simp [probe, outcome, found, done, progressed],
              nofun, nofun⟩
          | true =>
            have less := scanned.remaining_lt progressed
            obtain ⟨result, returns, answered⟩ := ih (scanned.passed found) (n + 1) (by omega)
            refine ⟨result, first fun left enough => ?_, answered⟩
            simpa [probe, outcome, found, done, progressed] using returns left enough

theorem starts_of_ok {starts : Int → Option Int} (ends : startsOf starts boundaries = .ok positions)
    {partition boundary : Int} (mem : (partition, boundary) ∈ boundaries) :
    starts partition = some (positions partition) := by
  have loop (all : List (Int × Int)) (first last : Int → Int)
      (ends : all.foldlM (takeStart starts) first = .ok last)
      (known : partition ∈ all.map Prod.fst ∨ starts partition = some (first partition)) :
      starts partition = some (last partition) := by
    induction all generalizing first with
    | nil =>
      cases ends
      exact known.resolve_left (by simp)
    | cons entry rest ih =>
      rw [foldlM_cons, takeStart] at ends
      cases listed : starts entry.1 with rw [listed] at ends
      | none =>
        cases ends
      | some offset =>
        refine ih _ ends ?_
        by_cases same : partition = entry.1
        · rw [same, update_self]
          exact .inr listed
        · rw [update_of_ne same]
          exact known.imp_left fun mem => (mem_cons.1 mem).resolve_left same
  exact loop boundaries _ positions ends (.inl (List.mem_map_of_mem mem))

structure Ready (answers : Answers) (ends : List ListedOffset) (starts : Int → Option Int)
    (first : Int → Int) : Prop where
  client : answers.client = true
  stable : answers.stable = some ends
  readable : ends.find? (fun lo => lo.offset.isNone) = none
  listed : answers.starts = some starts
  positions : startsOf starts (boundariesOf ends) = .ok first
  metadata : answers.metadata = some true

theorem ready_of_prepare {answers : Answers}
    (done : prepare answers = .ok (boundaries, positions)) :
    ∃ ends starts, boundaries = boundariesOf ends ∧ Ready answers ends starts positions := by
  unfold prepare at done
  repeat' split at done
  all_goals cases done
  exact ⟨_, _, rfl, by simpa using ‹¬(!answers.client) = true›, ‹_›, ‹_›, ‹_›, ‹_›, ‹_›⟩

/-- A round of the scan. -/
def Round (answers : Answers) (txnID id : Bytes) (boundaries : List (Int × Int)) (n : Nat)
    (positions : Int → Int) : Prop :=
  ∃ first, prepare answers = .ok (boundaries, first) ∧
    allMarkerPartitionsDone boundaries first = false ∧
    Reaches boundaries txnID id answers.fetch 0 first n positions

/-- A call before the scan fails, or a partition is listed with an error or without a start. -/
def Answers.Fail (answers : Answers) : Prop :=
  answers.client = false ∨ answers.stable = none ∨ answers.starts = none ∨
    answers.metadata ≠ some true ∨
    ∃ ends starts, answers.stable = some ends ∧ answers.starts = some starts ∧ ∃ lo ∈ ends,
      lo.offset = none ∨ 0 ≤ lo.partition ∧ starts lo.partition = none

theorem mem_boundariesOf {ends : List ListedOffset} {lo : ListedOffset} (mem : lo ∈ ends)
    (valid : 0 ≤ lo.partition) (offset : lo.offset = some boundary) :
    (lo.partition, boundary) ∈ boundariesOf ends :=
  mem_filterMap.2 ⟨lo, mem, by simp [valid, offset]⟩

theorem Ready.listed_with {answers : Answers} {ends : List ListedOffset} {starts : Int → Option Int}
    {first : Int →
      Int} (ready : Ready answers ends starts first) {lo : ListedOffset} (mem : lo ∈ ends) :
    ∃ boundary, lo.offset = some boundary ∧ (0 ≤ lo.partition →
      (lo.partition, boundary) ∈ boundariesOf ends ∧
        starts lo.partition = some (first lo.partition)) := by
  have readable := List.find?_eq_none.1 ready.readable lo mem
  obtain ⟨boundary, offset⟩ := Option.ne_none_iff_exists'.1 (by simpa using readable)
  refine ⟨boundary, offset, fun valid => ?_⟩
  have inside := mem_boundariesOf mem valid offset
  exact ⟨inside, starts_of_ok ready.positions inside⟩

theorem Ready.not_fail {answers : Answers} {ends : List ListedOffset} {starts : Int → Option Int}
    {first : Int → Int} (ready : Ready answers ends starts first) : ¬ answers.Fail := by
  rintro (failed | failed | failed | failed | ⟨others, begun, stable, listed, lo, mem, failed⟩)
  · simp [ready.client] at failed
  · simp [ready.stable] at failed
  · simp [ready.listed] at failed
  · exact failed ready.metadata
  · obtain rfl := some.inj (ready.stable.symm.trans stable)
    obtain rfl := some.inj (ready.listed.symm.trans listed)
    obtain ⟨boundary, offset, known⟩ := ready.listed_with mem
    rcases failed with unreadable | ⟨valid, missing⟩
    · simp [offset] at unreadable
    · simp [(known valid).2] at missing

/-- For every broker that answers fetches with what it holds, `WasCommitted` returns. A positive
answer means that a marker partition holds the marker; a negative one that every partition is listed
without an error and none holds the marker between its start offset and its boundary; and errors,
missing metadata and a round without progress are never a negative answer. -/
theorem wasCommitted_sound (answers : Answers) (txnID id : Bytes) (log : Log)
    (honest : ∀ ends, answers.stable = some ends → Honest log (boundariesOf ends) answers.fetch) :
    ∃ rounds result, (∀ more, rounds ≤ more → wasCommitted answers txnID id more = some result) ∧
    (result = .ok true → ∃ ends, answers.stable = some ends ∧
      Present log (boundariesOf ends) txnID id) ∧
    (result = .ok false → ∃ ends starts, answers.stable = some ends ∧ answers.starts = some starts ∧
      ∀ lo ∈ ends, ∃ boundary, lo.offset = some boundary ∧ (0 ≤ lo.partition → ∃ first,
        starts lo.partition = some first ∧ ∀ offset, first ≤ offset → offset < boundary →
          log lo.partition offset ≠ some (txnID, id))) ∧
    (answers.Fail → ∃ e, result = .error e) ∧
    ∀ boundaries n positions, Round answers txnID id boundaries n positions →
      (∀ e, scan boundaries txnID id (answers.fetch n positions) positions = .error e →
        result = .error e) ∧
      ∀ s, scan boundaries txnID id (answers.fetch n positions) positions = .ok s →
        s.progressed = false → result = .error .noProgress := by
  cases prepared : prepare answers with
  | error e =>
    have returns (more : Nat) : wasCommitted answers txnID id more = some (.error e) := by
      simp only [wasCommitted, prepared]
    refine ⟨0, .error e, fun more _ => returns more, nofun, nofun, fun _ => ⟨e, rfl⟩,
      fun boundaries n positions => ?_⟩
    rintro ⟨first, other, -⟩
    cases prepared.symm.trans other
  | ok found =>
  obtain ⟨boundaries, first⟩ := found
  obtain ⟨ends, starts, rfl, ready⟩ := ready_of_prepare prepared
  have negative (absent : ∀ partition boundary, (partition, boundary) ∈ boundariesOf ends →
    ∀ offset,
      first partition ≤ offset → offset < boundary → log partition offset ≠ some (txnID, id)) :
      ∃ ends starts, answers.stable = some ends ∧ answers.starts = some starts ∧
        ∀ lo ∈ ends, ∃ boundary, lo.offset = some boundary ∧ (0 ≤ lo.partition → ∃ first,
          starts lo.partition = some first ∧ ∀ offset, first ≤ offset → offset < boundary →
            log lo.partition offset ≠ some (txnID, id)) := by
    refine ⟨ends, starts, ready.stable, ready.listed, fun lo mem => ?_⟩
    obtain ⟨boundary, offset, known⟩ := ready.listed_with mem
    exact ⟨boundary, offset, fun valid => ⟨_, (known valid).2, absent _ _ (known valid).1⟩⟩
  cases done : allMarkerPartitionsDone (boundariesOf ends) first with
  | true =>
    refine ⟨0, .ok false, fun more _ => by simp only [wasCommitted, prepared, done, if_true], nofun,
      fun _ => negative fun p boundary mem offset least below => ?_,
      fun failed => absurd failed ready.not_fail, fun boundaries n positions => ?_⟩
    · have past := done_iff.1 done p boundary mem
      omega
    · rintro ⟨begun, same, unfinished, -⟩
      cases prepared.symm.trans same
      cases done.symm.trans unfinished
  | false =>
    have passed : Passed log first txnID id first := fun p offset least below =>
      absurd (lt_of_le_of_lt least below) (lt_irrefl _)
    have honest := honest ends ready.stable
    have probes (more : Nat) : wasCommitted answers txnID id more =
        probe (boundariesOf ends) txnID id answers.fetch more 0 first := by
      simp [wasCommitted, prepared, done]
    obtain ⟨result, returns, present, absent⟩ :=
      probe_answers honest passed 0 _ (Nat.lt_succ_self _)
    refine ⟨_, result, fun more least => (probes more).trans (returns more least),
      fun is => ⟨ends, ready.stable, present is⟩, fun is => negative (absent is),
      fun failed => absurd failed ready.not_fail, fun boundaries n positions => ?_⟩
    rintro ⟨begun, same, -, reaches⟩
    cases prepared.symm.trans same
    obtain ⟨more, least, left, -, agrees⟩ :=
      probe_of_reaches reaches (remaining (boundariesOf ends) first)
    have decided := agrees.symm.trans (returns (more + 1) (by omega))
    refine ⟨fun e fails => ?_, fun s scans stalled => ?_⟩
    · simp only [probe, fails] at decided
      exact (some.inj decided).symm
    · -- A round without progress ends where it began, with a partition that is not done.
      obtain ⟨passed, unfinished⟩ := reaches.passed honest passed done
      have scanned := scanned_of_scan honest passed scans
      have absent :
        s.found = false := eq_false_iff.2 fun found => by simp [(scanned.found found).2] at stalled
      rw [← scanned.same stalled] at unfinished
      simp only [probe, scans, absent, unfinished, stalled] at decided
      exact (some.inj decided).symm

/-! ## Two partitions -/

/-- Partition 0 holds a marker of another checkpoint, partition 1 an aborted one and then the
marker. -/
def lastMarker (partition : Int) : Marker := if partition = 0 then ⟨0, [1], [9]⟩ else ⟨1, [1], [2]⟩

def twoMarkers : Log := fun partition offset =>
  if offset = (lastMarker partition).offset then
    some ((lastMarker partition).key, (lastMarker partition).value)
  else none

def markerPartition (partition : Int) : RawPartition where
  partition
  process position := some
    (⟨if position ≤ (lastMarker partition).offset then [lastMarker partition] else [],
      partition + 1⟩, partition + 1)

def twoPartitions : Answers where
  stable := some [⟨0, some 1⟩, ⟨1, some 2⟩]
  starts := some fun _ => some 0
  fetch _ positions :=
    [.response (([0, 1].filter fun p => decide (positions p < p + 1)).map markerPartition)]

theorem twoPartitions_honest (ends : List ListedOffset)
    (stable : twoPartitions.stable = some ends) :
    Honest twoMarkers (boundariesOf ends) twoPartitions.fetch := by
  cases stable
  intro n positions parts answered raw mem
  obtain rfl := Shard.response.inj (mem_singleton.1 answered)
  obtain ⟨p, asked, rfl⟩ := mem_map.1 mem
  obtain ⟨known, behind⟩ := mem_filter.1 asked
  have known : p = 0 ∨ p = 1 := by simpa using known
  have below : (lastMarker p).offset < p + 1 := by rcases known with rfl | rfl <;> decide
  refine ⟨fun position part next processed offset key value => ?_, p + 1, ?_,
    of_decide_eq_true behind⟩
  · cases processed
    constructor
    · intro mem
      obtain ⟨start, single⟩ := mem_ite_nil_right.1 mem
      have own := mem_singleton.1 single
      rw [← own] at start below
      exact ⟨start, below, by simp [twoMarkers, markerPartition, ← own]⟩
    · rintro ⟨start, -, held⟩
      obtain ⟨rfl, same⟩ := ite_none_right_eq_some.1 held
      cases same
      exact mem_ite_nil_right.2 ⟨start, mem_singleton.2 rfl⟩
  · rcases known with rfl | rfl <;> simp [boundariesOf, markerPartition]

/-- The marker behind an aborted one is found; that of a third checkpoint is not, and is in neither
partition. -/
theorem marker_found : wasCommitted twoPartitions [1] [2] 2 = some (.ok true) ∧
    wasCommitted twoPartitions [1] [3] 2 = some (.ok false) ∧
    ∀ offset, 0 ≤ offset → (offset < 1 → twoMarkers 0 offset ≠ some ([1], [3])) ∧
      (offset < 2 → twoMarkers 1 offset ≠ some ([1], [3])) := by
  refine ⟨rfl, rfl, ?_⟩
  obtain ⟨rounds, result, returns, -, absent, -⟩ :=
    wasCommitted_sound twoPartitions [1] [3] twoMarkers twoPartitions_honest
  have negative : result = .ok false := (some.inj (returns (rounds + 2) (by omega))).symm
  obtain ⟨ends, starts, stable, listed, none⟩ := absent negative
  cases stable
  cases listed
  obtain ⟨boundary, first, zero⟩ := none ⟨0, some 1⟩ (by simp)
  obtain ⟨later, second, one⟩ := none ⟨1, some 2⟩ (by simp)
  cases first
  cases second
  obtain ⟨start, begins, zero⟩ := zero (by decide)
  obtain ⟨start', begins', one⟩ := one (by decide)
  cases begins
  cases begins'
  exact fun offset least => ⟨zero offset least, one offset least⟩

end Weibo.Sink.MarkerProbe
