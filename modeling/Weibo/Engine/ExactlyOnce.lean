import Weibo.Engine.CommitRuns
import Weibo.Engine.PositionHistory
import Weibo.Engine.Snapshots
import Weibo.Operator.OperatorSnapshots

/-!
# Exactly-once processing in coordinated mode

A job: readers, the injector, a stateful operator, the tap in front of the sink and the coordinated
commit protocol. It may crash between any two steps and is then restarted from the checkpoint that
recovery resolves. Channels are unbounded, which only adds schedules. What the operator must do is
that its snapshots restore a state that behaves alike; a reduce operator over text keys does.
-/

namespace Weibo.Engine

open Checkpoint Sink Source List Option Function AList Record
open Marked (marks ahead ahead_append_of_mem marks_append marks_singleton mem_marks)
open Transition (Reach Always of_ite_none)
open Injector (positionKey)
open Record (barrierID data_append newBarrier)

/-- The input of a source: the records of every stream and partition, under their own
identity. -/
structure Partitions (src : CheckpointSource) where
  records : PositionKey → List Record
  identified : ∀ key (offset : Nat) r, (records key)[offset]? = some r →
    r.isMarker = false ∧ positionKey r = key ∧ r.offset = offset
  named : ∀ key, records key ≠ [] → key.source ≠ "" ∧ 0 ≤ key.partition
  own : ∀ own ∈ src.ownKey, ∀ key, records key ≠ [] → key = own

/-- A deterministic operator that forwards markers. -/
structure StatefulOperator (σ ν : Type) where
  initial : σ
  process : σ → Record → σ × List Record
  emits : ∀ s r, ∀ out ∈ (process s r).2, out.isMarker = false
  snapshot : σ → ν
  restore : ν → σ

namespace StatefulOperator

variable {σ ν : Type} (op : StatefulOperator σ ν)

/-- On the records of an input, states that are `same` emit the same and stay so, and a snapshot of
one restores another. -/
structure Restores {src : CheckpointSource} (input : Partitions src) (same : σ → σ → Prop) :
    Prop where
  initial : same op.initial op.initial
  process : ∀ {a b}, same a b → ∀ {key r}, r ∈ input.records key →
    (op.process a r).2 = (op.process b r).2 ∧ same (op.process a r).1 (op.process b r).1
  restore : ∀ {a b}, same a b → same a (op.restore (op.snapshot b))

def step (s : σ) (r : Record) : σ × List Record :=
  if r.isMarker then (s, [r]) else op.process s r

def final (s : σ) (stream : List Record) : σ := Transducer.final op.step s stream

def outputs (s : σ) (stream : List Record) : List Record :=
  Transducer.outputs op.step s stream

theorem forwards : Marked.Forwards barrierID op.step := by
  intro s r
  cases barrier : r.barrierID with
  | none =>
    intro out inside
    by_cases marker : r.isMarker = true
    · simp only [step, marker, if_true, mem_singleton] at inside
      exact inside ▸ barrier
    · simp only [step, marker, Bool.false_eq_true, if_false] at inside
      exact barrierID_of_data (op.emits s r out inside)
  | some id =>
    have marker := isMarker_of_barrierID barrier
    exact ⟨r, by simp [step, marker], barrier⟩

theorem final_append (s : σ) (first second : List Record) :
    op.final s (first ++ second) = op.final (op.final s first) second :=
  Transducer.final_append ..

theorem outputs_append (s : σ) (first second : List Record) :
    op.outputs s (first ++ second) = op.outputs s first ++ op.outputs (op.final s first) second :=
  Transducer.outputs_append ..

theorem marks_outputs (s : σ) (stream : List Record) :
    marks barrierID (op.outputs s stream) = marks barrierID stream :=
  op.forwards.marks_outputs s stream

theorem ahead_outputs (s : σ) (stream : List Record) (id : CheckpointID) :
    ahead barrierID id (op.outputs s stream) = op.outputs s (ahead barrierID id stream) :=
  op.forwards.ahead_outputs s stream id

theorem final_data (s : σ) (stream : List Record) :
    op.final s (data stream) = op.final s stream := by
  induction stream generalizing s with
  | nil => rfl
  | cons r rest ih =>
    by_cases marker : r.isMarker = true
    · simpa [data, final, Transducer.final, step, marker] using ih s
    · simpa [data, final, Transducer.final, step, marker] using ih (op.process s r).1

theorem data_outputs (s : σ) (stream : List Record) :
    data (op.outputs s stream) = op.outputs s (data stream) := by
  induction stream generalizing s with
  | nil => rfl
  | cons r rest ih =>
    simp only [outputs, Transducer.outputs, data_append] at ih ⊢
    rw [ih]
    by_cases marker : r.isMarker = true
    · simp [data, step, marker]
    · have all : data (op.process s r).2 = (op.process s r).2 :=
        filter_eq_self.2 fun out inside => by simp [op.emits s r out inside]
      simp [data, Transducer.outputs, step, marker] at all ⊢
      exact all

theorem Restores.step {op : StatefulOperator σ ν} {src : CheckpointSource} {input : Partitions src}
    {same : σ → σ → Prop} (restores : op.Restores input same) {a b : σ} (alike : same a b)
    {r : Record} (read : r.isMarker = false → ∃ key, r ∈ input.records key) :
    (op.step a r).2 = (op.step b r).2 ∧ same (op.step a r).1 (op.step b r).1 := by
  cases marker : r.isMarker with
  | true => simpa [StatefulOperator.step, marker] using alike
  | false =>
    obtain ⟨key, mem⟩ := read marker
    simpa [StatefulOperator.step, marker] using restores.process alike mem

end StatefulOperator

def seekPositions (src : CheckpointSource) (data : Option PositionData) : List Position :=
  match data.map src.restoreOffset with
  | some (.ok positions) => positions
  | _ => []

def seekOffset (positions : List Position) (key : PositionKey) : Nat :=
  match positions.find? fun p => p.key = key with
  | some p => p.offset.toNat
  | none => 0

structure Job (σ ν : Type) where
  position : PositionKey → Nat
  restored : List Position
  feed : List Record := []
  injector : Injector
  stream : List Record := []
  state : σ
  table : SnapshotTable Unit ν := ∅
  outbound : List Record := []
  run : Coordinated PositionData ν

inductive JobAction (ν : Type) where
  | read (key : PositionKey)
  | pass
  | tick (kind : BarrierKind)
  | operate (stale : CheckpointID)
  | tap
  | protocol (action : ProtocolAction PositionData ν)
  | crash

namespace Job

variable {σ ν : Type}

def resume (src : CheckpointSource) (op : StatefulOperator σ ν) (runNonce : Nat)
    (data : Option (CheckpointData PositionData ν)) (store : Storage PositionData ν)
    (topic : Topic) : Job σ ν :=
  let restored := seekPositions src (data.bind CheckpointData.source)
  { position := seekOffset restored
    restored
    injector := { runNonce }
    state := match data.bind CheckpointData.operators with
      | some snapshot => op.restore snapshot
      | none => op.initial
    run := .start store topic }

/-- The operator handles a record: it snapshots at a barrier, forwards markers and processes
data. -/
def operate (op : StatefulOperator σ ν) (j : Job σ ν) (stale : CheckpointID) : Option (Job σ ν) :=
  match j.stream with
  | [] => none
  | r :: rest =>
    let onward := { j with
      stream := rest
      state := (op.step j.state r).1
      outbound := j.outbound ++ (op.step j.state r).2 }
    match r.barrierID with
    | none => some onward
    | some id =>
      if evicts j.table id ∧ stale ∉ j.table then none
      else some { onward with
        table := addBarrierSnapshot j.table stale id () (op.snapshot j.state) }

/-- The tap handles a record: at a barrier the snapshots are collected and registered before
the barrier goes on to the sink. -/
def tap (op : StatefulOperator σ ν) (j : Job σ ν) : Option (Job σ ν) :=
  match j.outbound with
  | [] => none
  | r :: rest =>
    let run := { j.run with input := j.run.input ++ [r] }
    match r.barrierID with
    | none => some { j with outbound := rest, run }
    | some id =>
      let snapshot := (barrierSnapshot j.table id ()).getD (op.snapshot j.state)
      some { j with
        outbound := rest
        table := j.table.erase id
        run := { run with coord := j.run.coord.onStateSnapshot id snapshot } }

def step (src : CheckpointSource) (input : Partitions src) (op : StatefulOperator σ ν)
    (cfg : TxnKafkaConfig) (j : Job σ ν) : JobAction ν → Option (Job σ ν)
  | .read key => ((input.records key)[j.position key]?).map fun r =>
      { j with
        position := update j.position key (j.position key + 1)
        feed := j.feed ++ [r] }
  | .pass =>
    match j.feed with
    | [] => none
    | r :: rest =>
      some { j with feed := rest, injector := j.injector.pass r, stream := j.stream ++ [r] }
  | .tick kind =>
    let id := j.injector.nextID kind
    some { j with
      injector := j.injector.barrier
      stream := j.stream ++ [newBarrier id]
      run := { j.run with
        coord := j.run.coord.onBarrierInjected id (some j.injector.alignedOffsets) } }
  | .operate stale => j.operate op stale
  | .tap => j.tap op
  | .protocol action =>
    if action.succeeds then (j.run.step cfg action).map fun run => { j with run } else none
  | .crash => (resolveCoordinatedRecovery j.run.store j.run.topic).map fun (data, store) =>
      resume src op (j.injector.runNonce + 1) data store j.run.topic

def start (src : CheckpointSource) (op : StatefulOperator σ ν) : Job σ ν :=
  resume src op 0 none [] {}

/-- The restored positions have all been passed again when a barrier is injected, and no
checkpoint in flight is thrown out of the snapshot table. -/
def Undisturbed (j : Job σ ν) : JobAction ν → Prop
  | .tick _ => ∀ p ∈ j.restored, p.key ∈ j.injector.offsets
  | .operate _ => ∀ id ∈ j.stream.head?.bind barrierID, ¬evicts j.table id
  | _ => True

end Job

def ofKey (key : PositionKey) (stream : List Record) : List Record :=
  stream.filter fun r => positionKey r = key

def committedPositions {ν : Type} (store : Storage PositionData ν) (topic : Topic) :
    List Position :=
  (((lastCommitted store topic).bind CheckpointData.source).map recorded).getD []

/-- The visible output is the output for exactly the records below the positions of the
checkpoint committed last, each once and in the order of its partition. -/
def VisibleOnce {σ ν : Type} {src : CheckpointSource} (input : Partitions src)
    (op : StatefulOperator σ ν) (cfg : TxnKafkaConfig) (j : Job σ ν) : Prop :=
  ∃ history : List Record,
    (∀ key, ofKey key history =
      (input.records key).take (seekOffset (committedPositions j.run.store j.run.topic) key)) ∧
    Coordinated.Written cfg [] (op.outputs op.initial history) j.run.topic.visible

/-! ## Positions -/

/-- The positions say exactly how far a history got in each partition, and the source accepts
them. -/
structure Positioned (src : CheckpointSource) (input : Partitions src) (history : List Record)
    (data : PositionData) : Prop where
  accepted : seekPositions src (some data) = recorded data
  below : ∀ key, ofKey key history =
    (input.records key).take (seekOffset (recorded data) key)
  named : ∀ key, ofKey key history ≠ [] → ∃ p ∈ recorded data, p.key = key

/-- A snapshot is one of the state behind a history, as far as the operator can tell. -/
def Snapshotted {σ ν : Type} (op : StatefulOperator σ ν) (same : σ → σ → Prop)
    (history : List Record) (snapshot : Option ν) : Prop :=
  ∃ s, same (op.final op.initial history) s ∧ snapshot = some (op.snapshot s)

def Describes {σ ν : Type} (src : CheckpointSource) (input : Partitions src)
    (op : StatefulOperator σ ν) (same : σ → σ → Prop) (history : List Record)
    (stored : Option (CheckpointData PositionData ν)) : Prop :=
  match stored with
  | none => history = []
  | some data => (∃ positions, data.source = some positions ∧
      Positioned src input history positions) ∧
      Snapshotted op same history data.operators

@[simp]
theorem ofKey_nil (key : PositionKey) : ofKey key [] = [] := rfl

@[simp]
theorem ofKey_append (key : PositionKey) (first second : List Record) :
    ofKey key (first ++ second) = ofKey key first ++ ofKey key second := filter_append ..

theorem ofKey_singleton (key : PositionKey) (r : Record) :
    ofKey key [r] = if positionKey r = key then [r] else [] := by
  by_cases same : positionKey r = key <;> simp [ofKey, same]

theorem seekOffset_of_mem {positions : List Position}
    (distinct : (positions.map Position.key).Nodup) {p : Position}
    (inside : p ∈ positions) : seekOffset positions p.key = p.offset.toNat := by
  obtain ⟨before, after, rfl⟩ := append_of_mem inside
  have missed : before.find? (fun q => q.key = p.key) = none := by
    simp only [find?_eq_none, decide_eq_true_eq]
    intro q earlier same
    rw [map_append, map_cons] at distinct
    exact (nodup_append.1 distinct).2.2 q.key (mem_map_of_mem earlier) p.key
      (mem_cons_self ..) same
  simp [seekOffset, find?_append, missed]

theorem seekOffset_of_not_mem {positions : List Position} {key : PositionKey}
    (absent : ∀ p ∈ positions, p.key ≠ key) : seekOffset positions key = 0 := by
  have missed : positions.find? (fun p => p.key = key) = none := by
    simpa [find?_eq_none] using absent
  simp [seekOffset, missed]

def Tracks (offsets : OffsetMap) (history : List Record) : Prop :=
  ∀ key, offsets.lookup key =
    if ofKey key history = [] then none else some ((ofKey key history).length : Int)

theorem Tracks.positioned {src : CheckpointSource} {input : Partitions src} {offsets : OffsetMap}
    {history : List Record} (tracks : Tracks offsets history)
    (part : ∀ key, ∃ n, ofKey key history = (input.records key).take n) :
    Positioned src input history (encodePositions offsets.positions) := by
  have sorted := perm_insertionSort Position.before offsets.positions
  have recorded_eq : recorded (encodePositions offsets.positions) =
      offsets.positions.insertionSort Position.before := rfl
  have distinct : ((recorded (encodePositions offsets.positions)).map Position.key).Nodup :=
    (sorted.map Position.key).nodup_iff.2 OffsetMap.nodup_positions
  have filled : ∀ key, ofKey key history ≠ [] → input.records key ≠ [] := by
    intro key delivers empty
    obtain ⟨n, below⟩ := part key
    exact delivers (by simp [below, empty])
  have mem : ∀ p, p ∈ recorded (encodePositions offsets.positions) ↔
      ofKey p.key history ≠ [] ∧ p.offset = ((ofKey p.key history).length : Int) := by
    intro p
    rw [recorded_eq, sorted.mem_iff, OffsetMap.mem_positions, tracks]
    by_cases empty : ofKey p.key history = [] <;> simp [empty, eq_comm]
  have valid : ∀ p ∈ offsets.positions, p.Valid := by
    intro p inside
    obtain ⟨delivers, offset⟩ := (mem p).1 (sorted.mem_iff.2 inside)
    have named := input.named p.key (filled p.key delivers)
    exact ⟨named.1, named.2, by rw [offset]; exact Int.natCast_nonneg _⟩
  refine ⟨?_, ?_, ?_⟩
  · have decoded :
      ∀ legacySource, decodePositions (encodePositions offsets.positions) legacySource =
        .ok (recorded (encodePositions offsets.positions)) := fun legacySource =>
      decodePositions_encodePositions legacySource valid OffsetMap.nodup_positions
    cases src with
    | kafka legacyTopic => simp [seekPositions, CheckpointSource.restoreOffset, decoded]
    | file sourceName =>
      have keys : ∀ p ∈ recorded (encodePositions offsets.positions), p.key = ⟨sourceName, 0⟩ :=
        fun p inside => input.own _ rfl p.key (filled p.key ((mem p).1 inside).1)
      have read := decoded sourceName
      generalize recorded (encodePositions offsets.positions) = positions at *
      cases positions with
      | nil => simp [seekPositions, CheckpointSource.restoreOffset, read]
      | cons p rest =>
        cases rest with
        | nil =>
          have key := keys p (mem_cons_self ..)
          simp only [Position.key, PositionKey.mk.injEq] at key
          simp [seekPositions, CheckpointSource.restoreOffset, read, key.1, key.2]
        | cons q rest =>
          have same := (keys p (by simp)).trans (keys q (by simp)).symm
          simp [same] at distinct
  · intro key
    by_cases empty : ofKey key history = []
    · rw [empty, seekOffset_of_not_mem, take_zero]
      rintro p inside rfl
      exact ((mem p).1 inside).1 empty
    · have inside : (⟨key.source, key.partition, ((ofKey key history).length : Int)⟩ : Position) ∈
          recorded (encodePositions offsets.positions) := (mem _).2 ⟨empty, rfl⟩
      have seek := seekOffset_of_mem distinct inside
      obtain ⟨n, below⟩ := part key
      rw [show seekOffset (recorded (encodePositions offsets.positions)) key =
        (ofKey key history).length from seek, below, length_take]
      exact take_eq_take_iff.2 (by omega)
  · intro key delivers
    exact ⟨⟨key.source, key.partition, ((ofKey key history).length : Int)⟩,
      (mem _).2 ⟨delivers, rfl⟩, rfl⟩

/-! ## The invariant of a job -/

structure Trace (ν : Type) where
  base : List Record
  emitted : List Record := []
  consumed : List Record := []
  arrived : List Record := []
  visible : List TxnMessage
  first : Option (CheckpointData PositionData ν)

def Trace.historyAt {ν : Type} (tr : Trace ν) (id : CheckpointID) : List Record :=
  if id ∈ marks barrierID tr.emitted then
    tr.base ++ data (ahead barrierID id tr.emitted)
  else []

namespace Job

variable {σ ν : Type} {src : CheckpointSource} {input : Partitions src} {op : StatefulOperator σ ν}
  {same : σ → σ → Prop} {cfg : TxnKafkaConfig} {tr : Trace ν} {j t : Job σ ν}

def surroundings (src : CheckpointSource) (input : Partitions src) (op : StatefulOperator σ ν)
    (same : σ → σ → Prop) (tr : Trace ν) (j : Job σ ν) : Feed PositionData ν where
  arrived := tr.arrived
  upstream := marks barrierID (j.outbound ++ j.stream)
  positions id offsets := ∃ data, offsets = some data ∧
    Positioned src input (tr.historyAt id) data
  state id state := Snapshotted op same (tr.historyAt id) state

def Known (j : Job σ ν) (id : CheckpointID) : Prop :=
  id.runNonce < j.injector.runNonce ∨
    id.runNonce = j.injector.runNonce ∧ id.number ≤ j.injector.checkpointID

structure Inv (src : CheckpointSource) (input : Partitions src) (op : StatefulOperator σ ν)
    (same : σ → σ → Prop) (cfg : TxnKafkaConfig) (tr : Trace ν)
    (last : Option (CheckpointData PositionData ν)) (j : Job σ ν) : Prop where
  read : ∀ key, ofKey key (tr.base ++ data tr.emitted ++ j.feed) =
    (input.records key).take (j.position key)
  delivered : ∀ r ∈ j.feed, r.isMarker = false
  offsets : ∀ key, j.injector.offsets.lookup key =
    if ofKey key (data tr.emitted) = [] then none
    else some ((ofKey key (tr.base ++ data tr.emitted)).length : Int)
  restored : ∀ key, ofKey key tr.base ≠ [] → ∃ p ∈ j.restored, p.key = key
  split : tr.emitted = tr.consumed ++ j.stream
  state : same (op.final op.initial (tr.base ++ data tr.consumed)) j.state
  flow : op.outputs (op.final op.initial tr.base) tr.consumed = tr.arrived ++ j.outbound
  injected : ∀ id ∈ marks barrierID tr.emitted, j.Known id
  stored : ∀ data ∈ j.run.store, j.Known data.id
  marked : ∀ id ∈ j.run.topic.markers, j.Known id
  table : ∀ id ∈ marks barrierID j.outbound,
    Snapshotted op same (tr.historyAt id) (barrierSnapshot j.table id ())
  protocol : j.run.Tracked cfg tr.visible tr.first (j.surroundings src input op same tr) last
  first : Describes src input op same tr.base tr.first
  before : Coordinated.Written cfg [] (op.outputs op.initial tr.base) tr.visible

variable {last : Option (CheckpointData PositionData ν)}

theorem written_trans {first second : List Record} {base middle output : List TxnMessage}
    (before : Coordinated.Written cfg base first middle)
    (after : Coordinated.Written cfg middle second output) :
    Coordinated.Written cfg base (first ++ second) output := by
  obtain ⟨messages, all, rfl⟩ := before
  obtain ⟨more, all', rfl⟩ := after
  exact ⟨messages ++ more, by rw [map_append, map_append, all, all'],
    (append_assoc ..).symm⟩

theorem Inv.marks_consumed (inv : j.Inv src input op same cfg tr last) :
    marks barrierID tr.consumed =
      marks barrierID tr.arrived ++ marks barrierID j.outbound := by
  rw [← op.marks_outputs (op.final op.initial tr.base) tr.consumed, inv.flow, marks_append]

theorem Inv.committed (inv : j.Inv src input op same cfg tr last) :
    ∃ history, Describes src input op same history last ∧
      Coordinated.Written cfg [] (op.outputs op.initial history) j.run.topic.visible := by
  rcases inv.protocol.resolved.outcome with
    ⟨rfl, visible⟩ | ⟨data, rfl, here, positions, state, written⟩
  · exact ⟨tr.base, inv.first, visible ▸ inv.before⟩
  · have arrived : data.id ∈ marks barrierID tr.arrived := here
    have consumed : data.id ∈ marks barrierID tr.consumed := by
      rw [inv.marks_consumed]
      exact mem_append_left _ arrived
    have emitted : data.id ∈ marks barrierID tr.emitted := by
      rw [inv.split, marks_append]
      exact mem_append_left _ consumed
    have history : tr.historyAt data.id =
        tr.base ++ Record.data (ahead barrierID data.id tr.emitted) := if_pos emitted
    -- what the sink received ahead of the barrier is the output of what is ahead of it
    have received : Record.data (ahead barrierID data.id tr.arrived) =
        op.outputs (op.final op.initial tr.base)
          (Record.data (ahead barrierID data.id tr.emitted)) := by
      rw [inv.split, ahead_append_of_mem consumed, ← op.data_outputs,
        ← op.ahead_outputs, inv.flow, ahead_append_of_mem arrived]
    refine ⟨tr.historyAt data.id, ⟨positions, state⟩, ?_⟩
    rw [history, op.outputs_append, ← received]
    exact written_trans inv.before written

theorem Inv.visibleOnce
    (inv : j.Inv src input op same cfg tr last) : VisibleOnce input op cfg j := by
  obtain ⟨history, describes, written⟩ := inv.committed
  have source := inv.protocol.resolved.agrees.lastCommitted_source
  refine ⟨history, ?_, written⟩
  cases found : lastCommitted j.run.store j.run.topic with
  | none =>
    cases last with
    | some data => simp [found] at source
    | none =>
      obtain rfl : history = [] := describes
      intro key
      simp [committedPositions, found, seekOffset]
  | some stored =>
    cases last with
    | none => simp [found] at source
    | some data =>
      obtain ⟨⟨positions, here, positioned⟩, -⟩ := describes
      have same : stored.source = some positions := by
        rw [found] at source
        exact (some.inj source).trans here
      intro key
      rw [positioned.below key]
      simp [committedPositions, found, same]

theorem inv_resume (restores : op.Restores input same) (store : Storage PositionData ν)
    (topic : Topic) (runNonce : Nat)
    {history : List Record} (agrees : Agrees store topic last)
    (settled : Settled store topic last) (describes : Describes src input op same history last)
    (written : Coordinated.Written cfg [] (op.outputs op.initial history) topic.visible)
    (stored : ∀ data ∈ store, data.id.runNonce < runNonce)
    (marked : ∀ id ∈ topic.markers, id.runNonce < runNonce) :
    (resume src op runNonce last store topic).Inv src input op same cfg
      { base := history, visible := topic.visible, first := last } last := by
  have resumed : (∀ key, ofKey key history = (input.records key).take
      (seekOffset (seekPositions src (last.bind CheckpointData.source)) key)) ∧
      (∀ key, ofKey key history ≠ [] →
        ∃ p ∈ seekPositions src (last.bind CheckpointData.source), p.key = key) ∧
      same (op.final op.initial history) (match last.bind CheckpointData.operators with
        | some snapshot => op.restore snapshot
        | none => op.initial) := by
    cases last with
    | none =>
      obtain rfl : history = [] := describes
      exact ⟨fun key => by simp [seekPositions, seekOffset], fun key read => absurd rfl read,
        restores.initial⟩
    | some data =>
      obtain ⟨⟨positions, here, positioned⟩, s, alike, state⟩ := describes
      simp only [bind_some, here, positioned.accepted, state]
      exact ⟨positioned.below, positioned.named, restores.restore alike⟩
  obtain ⟨below, named, state⟩ := resumed
  refine
    { read := fun key => ?_
      delivered := by simp [resume]
      offsets := by simp [resume]
      restored := named
      split := rfl
      state := ?_
      flow := rfl
      injected := by simp
      stored := fun data inside => .inl (stored data inside)
      marked := fun id inside => .inl (marked id inside)
      table := by simp [resume]
      protocol := Coordinated.tracked_start agrees settled _ rfl rfl
      first := describes
      before := written }
  · simpa [resume] using below key
  · simpa [resume] using state

/-! ## The steps of a job -/

variable {r : Record} {id : CheckpointID}

theorem historyAt_append (other : r.barrierID ≠ some id) :
    Trace.historyAt { tr with emitted := tr.emitted ++ [r] } id = tr.historyAt id := by
  have same : id ∈ marks barrierID (tr.emitted ++ [r]) ↔
      id ∈ marks barrierID tr.emitted := by
    rw [marks_append, mem_append, or_iff_left]
    intro inside
    obtain ⟨r', single, barrier⟩ := mem_marks.1 inside
    exact other (mem_singleton.1 single ▸ barrier)
  by_cases inside : id ∈ marks barrierID tr.emitted
  · simp only [Trace.historyAt, same.2 inside, inside, if_true]
    rw [ahead_append_of_mem inside]
  · simp only [Trace.historyAt, mt same.1 inside, inside, if_false]

theorem Inv.deliver (inv : j.Inv src input op same cfg tr last) {key : PositionKey}
    (next : (input.records key)[j.position key]? = some r) :
    Inv src input op same cfg tr last { j with
      position := update j.position key (j.position key + 1)
      feed := j.feed ++ [r] } := by
  obtain ⟨isData, own, -⟩ := input.identified key _ r next
  refine { inv with read := fun other => ?_, delivered := fun r' inside => ?_ }
  · rw [← append_assoc, ofKey_append, inv.read other, ofKey_singleton]
    by_cases same : other = key
    · subst same
      simp only [own, if_true, update_self, take_add_one, next, toList_some]
    · have apart : ¬positionKey r = other := fun here => same (here.symm.trans own)
      simp [apart, same]
  · rcases mem_append.1 inside with old | new
    · exact inv.delivered r' old
    · exact mem_singleton.1 new ▸ isData

variable {rest : List Record}

theorem Inv.next_offset (inv : j.Inv src input op same cfg tr last) (next : j.feed = r :: rest) :
    ((ofKey (positionKey r) (tr.base ++ data tr.emitted)).length : Int) = r.offset := by
  have own : ofKey (positionKey r) (r :: rest) =
      r :: ofKey (positionKey r) rest := by simp [ofKey]
  have here := inv.read (positionKey r)
  rw [ofKey_append, next, own] at here
  have found := congrArg (fun stream => stream[(ofKey (positionKey r)
    (tr.base ++ data tr.emitted)).length]?) here
  simp only [getElem?_append_right (Nat.le_refl _), Nat.sub_self, getElem?_cons_zero,
    getElem?_take] at found
  split at found
  · exact (input.identified _ _ r found.symm).2.2.symm
  · cases found

theorem Inv.pass (inv : j.Inv src input op same cfg tr last) (next : j.feed = r :: rest) :
    Inv src input op same cfg { tr with emitted := tr.emitted ++ [r] } last
      { j with feed := rest, injector := j.injector.pass r, stream := j.stream ++ [r] } := by
  have isData : r.isMarker = false := inv.delivered r (by simp [next])
  have plain : r.barrierID = none := barrierID_of_data isData
  have history : ∀ id, Trace.historyAt { tr with emitted := tr.emitted ++ [r] } id =
      tr.historyAt id := fun id => historyAt_append (by simp [plain])
  have emitted : data (tr.emitted ++ [r]) = data tr.emitted ++ [r] := by
    rw [data_append, data_singleton isData]
  have unmarked : ∀ stream, marks barrierID (stream ++ [r]) =
      marks barrierID stream := fun stream => by
    rw [marks_append, Marked.marks_singleton_none plain, append_nil]
  have passed : j.injector.pass r = { j.injector with
      offsets := j.injector.offsets.insert (positionKey r) (r.offset + 1) } := by
    simp [Injector.pass, isData]
  have surround : surroundings src input op same { tr with emitted := tr.emitted ++ [r] }
      { j with feed := rest, injector := j.injector.pass r, stream := j.stream ++ [r] } =
      j.surroundings src input op same tr := by
    simp only [surroundings, history, ← append_assoc, unmarked]
  have offset := inv.next_offset next
  refine { inv with
    read := fun key => ?_
    delivered := fun r' inside => inv.delivered r' (by simp [next, inside])
    offsets := fun key => ?_
    split := by rw [inv.split, append_assoc]
    injected := ?_
    stored := fun data inside => ?_
    marked := fun id inside => ?_
    table := fun id inside => ?_
    protocol := ?_ }
  · rw [emitted, ← inv.read key, next]
    simp [append_assoc]
  · rw [passed, emitted]
    by_cases same : key = positionKey r
    · subst same
      rw [lookup_insert, ← append_assoc]
      simp only [ofKey_append (positionKey r) _ [r], ofKey_singleton, if_true,
        append_eq_nil_iff, cons_ne_nil, and_false, if_false, length_append,
        length_singleton]
      rw [← offset]
      rfl
    · have apart : ¬positionKey r = key := fun here => same here.symm
      rw [lookup_insert_ne same, inv.offsets key]
      simp [ofKey_singleton, apart]
  · rw [unmarked]
    intro id inside
    simpa [Known, passed] using inv.injected id inside
  · simpa [Known, passed] using inv.stored data inside
  · simpa [Known, passed] using inv.marked id inside
  · rw [history]
    exact inv.table id inside
  · rw [surround]
    exact inv.protocol

theorem Inv.tracks (inv : j.Inv src input op same cfg tr last)
    (covered : ∀ p ∈ j.restored, p.key ∈ j.injector.offsets) :
    Tracks j.injector.offsets (tr.base ++ data tr.emitted) := by
  intro key
  rw [inv.offsets key]
  by_cases quiet : ofKey key (data tr.emitted) = []
  · have nothing : ofKey key tr.base = [] := by
      by_contra delivers
      obtain ⟨p, inside, rfl⟩ := inv.restored key delivers
      have tracked := lookup_isSome.2 (covered p inside)
      rw [inv.offsets, if_pos quiet] at tracked
      cases tracked
    simp [quiet, nothing]
  · simp [quiet]

theorem Inv.behind (inv : j.Inv src input op same cfg tr last) (key : PositionKey) :
    ∃ n, ofKey key (tr.base ++ data tr.emitted) = (input.records key).take n := by
  have here := inv.read key
  rw [ofKey_append] at here
  have first := congrArg
    (take (ofKey key (tr.base ++ data tr.emitted)).length) here
  rw [take_left, take_take] at first
  exact ⟨_, first⟩

theorem Inv.marks_emitted (inv : j.Inv src input op same cfg tr last) : marks barrierID
    tr.emitted = marks barrierID tr.arrived ++ marks barrierID (j.outbound ++ j.stream) := by
  rw [inv.split, marks_append, inv.marks_consumed, marks_append, append_assoc]

theorem Inv.distinct
    (inv : j.Inv src input op same cfg tr last) : (marks barrierID tr.emitted).Nodup :=
  inv.marks_emitted ▸ inv.protocol.carried.distinct

theorem Known.ne_next (known : j.Known id) (kind : BarrierKind) : id ≠ j.injector.nextID kind := by
  rintro rfl
  rcases known with earlier | ⟨-, counted⟩
  · exact Nat.lt_irrefl _ earlier
  · exact Nat.not_succ_le_self _ counted

theorem Inv.tick (inv : j.Inv src input op same cfg tr last)
    (covered : ∀ p ∈ j.restored, p.key ∈ j.injector.offsets) (kind : BarrierKind)
    (own : j.injector.nextID kind = id) :
    Inv src input op same cfg { tr with emitted := tr.emitted ++ [newBarrier id] } last
      { j with
        injector := j.injector.barrier
        stream := j.stream ++ [newBarrier id]
        run := { j.run with
          coord := j.run.coord.onBarrierInjected id (some j.injector.alignedOffsets) } } := by
  have fresh : id ∉ marks barrierID tr.emitted := fun inside =>
    (inv.injected id inside).ne_next kind own.symm
  have marks_tick : ∀ stream, marks barrierID (stream ++ [newBarrier id]) =
      marks barrierID stream ++ [id] := fun stream => by
    rw [marks_append, marks_singleton (barrierID_newBarrier id)]
  have emitted : data (tr.emitted ++ [newBarrier id]) = data tr.emitted := by
    rw [data_append, data_singleton_marker rfl, append_nil]
  have history : ∀ other, other ≠ id →
      Trace.historyAt { tr with emitted := tr.emitted ++ [newBarrier id] } other =
        tr.historyAt other := fun other apart =>
    historyAt_append fun same => apart (some.inj same).symm
  have here : Trace.historyAt { tr with emitted := tr.emitted ++ [newBarrier id] } id =
      tr.base ++ data tr.emitted := by
    rw [Trace.historyAt, if_pos (by rw [marks_tick]; simp),
      Marked.ahead_append_marked fresh (barrierID_newBarrier id)]
  have known : ∀ other, j.Known other → Known { j with injector := j.injector.barrier } other := by
    rintro other (earlier | ⟨nonce, counted⟩)
    · exact .inl earlier
    · exact .inr ⟨nonce, Nat.le_succ_of_le counted⟩
  refine { inv with
    read := fun key => by rw [emitted]; exact inv.read key
    offsets := fun key => by rw [emitted]; exact inv.offsets key
    split := by rw [inv.split, append_assoc]
    injected := ?_
    stored := fun data inside => known _ (inv.stored data inside)
    marked := fun other inside => known _ (inv.marked other inside)
    table := ?_
    protocol := ?_ }
  · intro other inside
    rw [marks_tick] at inside
    rcases mem_append.1 inside with old | new
    · exact known _ (inv.injected other old)
    · rw [mem_singleton.1 new, ← own]
      exact .inr ⟨rfl, Nat.le_refl _⟩
  · intro other inside
    have apart : other ≠ id := by
      rintro rfl
      apply fresh
      rw [inv.marks_emitted, marks_append]
      exact mem_append_right _ (mem_append_left _ inside)
    rw [history other apart]
    exact inv.table other inside
  · refine inv.protocol.inject (some j.injector.alignedOffsets) _ rfl ?_ ?_ ?_ ?_ ?_ ?_
    · simp only [surroundings]
      rw [← append_assoc, marks_tick]
    · have unseen := fresh
      rw [inv.marks_emitted] at unseen
      exact unseen
    · rintro (⟨data, inside, same⟩ | inside)
      · exact (inv.stored data inside).ne_next kind (same.trans own.symm)
      · exact (inv.marked id inside).ne_next kind own.symm
    · intro other apart offsets right
      simp only [surroundings] at right ⊢
      rw [history other apart]
      exact right
    · intro other apart state right
      simp only [surroundings] at right ⊢
      rw [history other apart]
      exact right
    · refine ⟨_, rfl, ?_⟩
      rw [here]
      exact (inv.tracks covered).positioned inv.behind

/-- The operator handles a record as if it had seen the whole history in one run. -/
theorem Inv.reacts (inv : j.Inv src input op same cfg tr last) (restores : op.Restores input same)
    (next : j.stream = r :: rest) :
    (op.step (op.final op.initial (tr.base ++ data tr.consumed)) r).2 = (op.step j.state r).2 ∧
      same (op.step (op.final op.initial (tr.base ++ data tr.consumed)) r).1
        (op.step j.state r).1 := by
  refine restores.step inv.state fun isData => ⟨positionKey r, ?_⟩
  have emitted : r ∈ data tr.emitted :=
    mem_filter.2 ⟨by simp [inv.split, next], by simp [isData]⟩
  refine mem_of_mem_take (i := j.position (positionKey r)) ?_
  rw [← inv.read]
  exact mem_filter.2 ⟨mem_append_left _ (mem_append_right _ emitted), decide_eq_true rfl⟩

theorem Inv.state_next (inv : j.Inv src input op same cfg tr last)
    (restores : op.Restores input same)
    (next : j.stream = r :: rest) : same
      (op.final op.initial (tr.base ++ data (tr.consumed ++ [r]))) (op.step j.state r).1 := by
  rw [data_append, ← append_assoc, op.final_append, op.final_data]
  exact (inv.reacts restores next).2

theorem Inv.flow_next (inv : j.Inv src input op same cfg tr last)
    (restores : op.Restores input same)
    (next : j.stream = r :: rest) :
    op.outputs (op.final op.initial tr.base) (tr.consumed ++ [r]) =
      tr.arrived ++ (j.outbound ++ (op.step j.state r).2) := by
  have single : op.outputs (op.final op.initial (tr.base ++ data tr.consumed)) [r] =
    (op.step j.state r).2 := (Transducer.outputs_singleton ..).trans (inv.reacts restores next).1
  rw [op.final_append, op.final_data] at single
  rw [op.outputs_append, inv.flow, single, append_assoc]

theorem Inv.handle (inv : j.Inv src input op same cfg tr last) (restores : op.Restores input same)
    (next : j.stream = r :: rest) (table : SnapshotTable Unit ν)
    (kept : ∀ id ∈ marks barrierID (j.outbound ++ (op.step j.state r).2),
      Snapshotted op same (tr.historyAt id) (barrierSnapshot table id ())) :
    Inv src input op same cfg { tr with consumed := tr.consumed ++ [r] } last
      { j with
        stream := rest
        state := (op.step j.state r).1
        outbound := j.outbound ++ (op.step j.state r).2
        table } := by
  have single : marks barrierID (op.step j.state r).2 = marks barrierID [r] := by
    rw [← Transducer.outputs_singleton op.step, op.forwards.marks_outputs]
  have upstream : marks barrierID (j.outbound ++ (op.step j.state r).2 ++ rest) =
      marks barrierID (j.outbound ++ j.stream) := by
    rw [next, ← singleton_append, marks_append, marks_append, single,
      marks_append, marks_append, append_assoc]
  refine { inv with
    split := by rw [inv.split, next, append_assoc, singleton_append]
    state := inv.state_next restores next
    flow := inv.flow_next restores next
    table := kept
    protocol := ?_ }
  have surround : surroundings src input op same { tr with consumed := tr.consumed ++ [r] }
      { j with
        stream := rest
        state := (op.step j.state r).1
        outbound := j.outbound ++ (op.step j.state r).2
        table } = j.surroundings src input op same tr := by
    simp only [surroundings, upstream]
    rfl
  rw [surround]
  exact inv.protocol

theorem Inv.state_at (inv : j.Inv src input op same cfg tr last)
    (next : j.stream = r :: rest) (barrier : r.barrierID = some id) :
      id ∉ marks barrierID j.outbound ∧
      same (op.final op.initial (tr.historyAt id)) j.state := by
  have emitted : tr.emitted = tr.consumed ++ (r :: rest) := inv.split.trans (by rw [next])
  have present : id ∈ marks barrierID tr.emitted :=
    mem_marks.2 ⟨r, by simp [emitted], barrier⟩
  have distinct := inv.distinct
  rw [emitted, marks_append, ← singleton_append, marks_append,
    marks_singleton barrier] at distinct
  have absent : id ∉ marks barrierID tr.consumed := fun inside =>
    (nodup_append.1 distinct).2.2 id inside id (by simp) rfl
  constructor
  · intro inside
    rw [inv.marks_consumed] at absent
    exact absent (mem_append_right _ inside)
  · have here : ahead barrierID id tr.emitted = tr.consumed := by
      rw [emitted, Marked.ahead_append_of_not_mem absent, Marked.ahead_cons, if_pos barrier,
        append_nil]
    rw [Trace.historyAt, if_pos present, here]
    exact inv.state

theorem Inv.operate (inv : j.Inv src input op same cfg tr last) (restores : op.Restores input same)
    {stale : CheckpointID} (room : ∀ id ∈ j.stream.head?.bind barrierID, ¬evicts j.table id)
    (moves : j.operate op stale = some t) : ∃ tr, t.Inv src input op same cfg tr last := by
  unfold Job.operate at moves
  split at moves
  · cases moves
  next r rest next =>
    have single : marks barrierID (op.step j.state r).2 = marks barrierID [r] := by
      rw [← Transducer.outputs_singleton op.step, op.forwards.marks_outputs]
    split at moves
    next plain =>
      cases moves
      refine ⟨_, inv.handle restores next j.table fun id inside => ?_⟩
      rw [marks_append, single, Marked.marks_singleton_none plain, append_nil] at inside
      exact inv.table id inside
    next id barrier =>
      obtain ⟨-, rfl⟩ := of_ite_none moves
      obtain ⟨unseen, state⟩ := inv.state_at next barrier
      have free : ¬evicts j.table id := room id (by simp [next, barrier])
      refine ⟨_, inv.handle restores next _ fun other inside => ?_⟩
      rw [marks_append, single, marks_singleton barrier] at inside
      rcases mem_append.1 inside with old | new
      · have apart : other ≠ id := fun same => unseen (same ▸ old)
        rw [barrierSnapshot_add_ne free (.inl apart)]
        exact inv.table other old
      · rw [mem_singleton.1 new, barrierSnapshot_add_self]
        exact ⟨_, state, rfl⟩

theorem Inv.tap (inv : j.Inv src input op same cfg tr last) (moves : j.tap op = some t) :
    ∃ tr, t.Inv src input op same cfg tr last := by
  unfold Job.tap at moves
  split at moves
  · cases moves
  next r rest next =>
    have flow : op.outputs (op.final op.initial tr.base) tr.consumed =
        tr.arrived ++ [r] ++ rest := by
      rw [inv.flow, next, append_assoc, singleton_append]
    split at moves
    next plain =>
      cases moves
      have upstream : marks barrierID (j.outbound ++ j.stream) =
          marks barrierID (rest ++ j.stream) := by
        rw [next, cons_append, ← singleton_append, marks_append,
          Marked.marks_singleton_none plain, nil_append]
      refine ⟨{ tr with arrived := tr.arrived ++ [r] }, { inv with
        flow := flow
        table := fun id inside => inv.table id ?_
        protocol := ?_ }⟩
      · rw [next, ← singleton_append, marks_append]
        exact mem_append_right _ inside
      · have arrived := inv.protocol.arrive plain
        simp only [surroundings, upstream] at arrived
        exact arrived
    next id barrier =>
      cases moves
      have upstream : marks barrierID (j.outbound ++ j.stream) =
          id :: marks barrierID (rest ++ j.stream) := by
        rw [next, cons_append, ← singleton_append, marks_append,
          marks_singleton barrier, singleton_append]
      have listed : id ∈ marks barrierID j.outbound :=
        mem_marks.2 ⟨r, by simp [next], barrier⟩
      obtain ⟨s, alike, found⟩ := inv.table id listed
      have distinct := inv.protocol.carried.distinct
      refine ⟨{ tr with arrived := tr.arrived ++ [r] }, { inv with
        flow := flow
        table := fun other inside => ?_
        protocol := ?_ }⟩
      · have apart : other ≠ id := by
          rintro rfl
          have later := (nodup_append.1 distinct).2.1
          simp only [surroundings, upstream, nodup_cons] at later
          apply later.1
          rw [marks_append]
          exact mem_append_left _ inside
        rw [barrierSnapshot_erase_ne apart]
        apply inv.table
        rw [next, ← singleton_append, marks_append]
        exact mem_append_right _ inside
      · have tapped := inv.protocol.tap barrier upstream
          ((barrierSnapshot j.table id ()).getD (op.snapshot j.state))
          ⟨s, alike, by rw [found]; rfl⟩
        exact tapped

theorem Inv.proceed (inv : j.Inv src input op same cfg tr last)
    (total : ∀ r, (cfg.message r).isSome) {action : ProtocolAction PositionData ν}
    (succeeds : action.succeeds = true) {run : Coordinated PositionData ν}
    (moves : j.run.step cfg action = some run) : ∃ last, Inv src input op same cfg tr last
    { j with run } := by
  obtain ⟨⟨last, tracked⟩, decided⟩ := inv.protocol.next total succeeds moves
  have known : ∀ id, run.Decided id → j.Known id := by
    intro id now
    rcases decided id now with (⟨data, inside, rfl⟩ | inside) | arrived
    · exact inv.stored data inside
    · exact inv.marked id inside
    · apply inv.injected
      rw [inv.marks_emitted]
      exact mem_append_left _ arrived
  exact ⟨last, { inv with
    stored := fun data inside => known _ (.inl ⟨data, inside, rfl⟩)
    marked := fun id inside => known _ (.inr inside)
    protocol := tracked }⟩

theorem Inv.crash (inv : j.Inv src input op same cfg tr last) (restores : op.Restores input same)
    (moves : (resolveCoordinatedRecovery j.run.store j.run.topic).map (fun (data, store) =>
      resume src op (j.injector.runNonce + 1) data store j.run.topic) = some t) :
    ∃ tr, t.Inv src input op same cfg tr last := by
  obtain ⟨history, describes, written⟩ := inv.committed
  obtain ⟨store, resolves, agrees, settled, old⟩ := inv.protocol.resolved.agrees.resolve
  rw [resolves, map_some] at moves
  cases moves
  have earlier : ∀ id, j.Known id → id.runNonce < j.injector.runNonce + 1 := by
    rintro id (before | ⟨same, -⟩)
    · exact Nat.lt_succ_of_lt before
    · exact same ▸ Nat.lt_succ_self _
  refine ⟨_, inv_resume restores store _ _ agrees settled describes written ?_ ?_⟩
  · intro data inside
    obtain ⟨before, stored, same⟩ := old data inside
    exact same ▸ earlier _ (inv.stored before stored)
  · exact fun id inside => earlier _ (inv.marked id inside)

theorem inv_start (restores : op.Restores input same) :
    (start src op).Inv src input op same cfg { base := [], visible := [], first := none } none :=
  inv_resume restores [] {} 0 ⟨nodup_nil, rfl, by simp, .inl (.inl rfl)⟩ (.inl rfl) rfl ⟨[], rfl,
    rfl⟩
    (by simp) (by simp)

def Traced (src : CheckpointSource) (input : Partitions src) (op : StatefulOperator σ ν)
    (same : σ → σ → Prop) (cfg : TxnKafkaConfig) (j : Job σ ν) : Prop :=
  ∃ tr last, j.Inv src input op same cfg tr last

theorem traced_step (restores : op.Restores input same) (total : ∀ r, (cfg.message r).isSome)
    {action : JobAction ν}
    (traced : j.Traced src input op same cfg) (undisturbed : j.Undisturbed action)
    (moves : j.step src input op cfg action = some t) : t.Traced src input op same cfg := by
  obtain ⟨tr, last, inv⟩ := traced
  cases action with
  | read key =>
    obtain ⟨r, next, rfl⟩ := map_eq_some_iff.1 moves
    exact ⟨tr, last, inv.deliver next⟩
  | pass =>
    simp only [step] at moves
    split at moves
    · cases moves
    next r rest next =>
      cases moves
      exact ⟨_, last, inv.pass next⟩
  | tick kind =>
    cases moves
    exact ⟨_, last, inv.tick undisturbed kind rfl⟩
  | operate stale =>
    obtain ⟨tr, inv⟩ := inv.operate restores undisturbed moves
    exact ⟨tr, last, inv⟩
  | tap =>
    obtain ⟨tr, inv⟩ := inv.tap moves
    exact ⟨tr, last, inv⟩
  | protocol action =>
    simp only [step, ite_none_right_eq_some, map_eq_some_iff] at moves
    obtain ⟨succeeds, run, moves, rfl⟩ := moves
    obtain ⟨last, inv⟩ := inv.proceed total succeeds moves
    exact ⟨tr, last, inv⟩
  | crash =>
    obtain ⟨tr, inv⟩ := inv.crash restores moves
    exact ⟨tr, last, inv⟩

end Job

/-- With an operator whose snapshots restore, in every history of runs and crashes whose barriers
are injected only after every restored partition has delivered again, and in which no checkpoint in
flight leaves the snapshot table: at every moment the visible output is that of exactly the records
below the positions of the checkpoint committed last, once each and in partition order. -/
theorem exactly_once {σ ν : Type} (src : CheckpointSource) (input : Partitions src)
    (op : StatefulOperator σ ν) {same : σ → σ → Prop} (restores : op.Restores input same)
    (serialize : Option (Record → Bytes)) (j : Job σ ν) (reach :
    Reach (Job.step src input op (.accepting serialize)) Job.Undisturbed (.start src op) j) :
    VisibleOnce input op (.accepting serialize) j := by
  have traced : j.Traced src input op same (.accepting serialize) :=
    reach.invariant ⟨_, _, Job.inv_start restores⟩ fun _ _ _ traced undisturbed moves =>
      Job.traced_step restores (TxnKafkaConfig.message_accepting serialize) traced undisturbed moves
  obtain ⟨tr, last, inv⟩ := traced
  exact inv.visibleOnce

/-! ## Reduce operators -/

section Reduce

variable [TimeText] (combine : Option Bytes → Record → Option Bytes)

/-- `NewReduce` with a function that does not panic. -/
def newReduce (op : ReduceOperator) : ReduceOperator :=
  { op with fn := fun accum r => some (combine accum r) }

/-- A reduce operator, with the snapshots that it reads back from JSON. -/
def reduceWith : StatefulOperator ReduceOperator OperatorSnapshot where
  initial := newReduce combine { fn := fun _ _ => none }
  process op r :=
    if r.isMarker then (op, [])
    else (((newReduce combine op).process r).next.getD op, ((newReduce combine op).process r).sends)
  emits op r out inside := by
    split at inside
    · cases inside
    · next isData =>
      have total : ∀ accum r, ((newReduce combine op).fn accum r).isSome = true := fun _ _ => rfl
      exact (ReduceOperator.process_data total (Bool.eq_false_of_not_eq_true isData)).sends out
        inside
  snapshot op := (Operator.reduce op).snapshot
  restore saved :=
    match (Operator.reduce (newReduce combine { fn := fun _ _ => none })).restore saved.readBack
      with
    | .reduce op => op
    | _ => newReduce combine { fn := fun _ _ => none }

/-- The same accumulators, under text keys, before any window. -/
structure SameCounts (a b : ReduceOperator) : Prop where
  values : ∀ key, a.values.lookup key = b.values.lookup key
  text : ∀ key, a.values.lookup key ≠ none → Utf8.Valid key
  before : a.windowFrontier = Time.zero ∧ b.windowFrontier = Time.zero

theorem process_reduceWith {op : ReduceOperator} {r : Record} (isData : r.isMarker = false)
    (plain : r.header "window_start" = none ∧ r.header "window_end" = none) :
    (reduceWith combine).process op r =
      ({ newReduce combine op with
          values := op.values.insert r.key ((combine (op.values.lookup r.key) r).getD []) },
        [{ key := r.key
           value := (combine (op.values.lookup r.key) r).getD []
           timestamp := r.timestamp
           offset := r.offset
           headers := r.headers }]) := by
  have kind := isData
  simp only [isMarker, Bool.or_eq_false_iff] at kind
  have own : stateKey r = r.key := by simp [stateKey, plain.1]
  have found : op.values.lookup (stateKey r) = op.values.lookup r.key := by rw [own]
  simp [reduceWith, newReduce, ReduceOperator.process, isData, kind.1, kind.2, own, found, plain.2,
    ReduceOperator.advanceWindowFrontier, Reaction.send]

/-- Over records with text keys and without window headers, a reduce operator is restored. -/
theorem restores_reduceWith {src : CheckpointSource} {input : Partitions src}
    (plain : ∀ key, ∀ r ∈ input.records key, Utf8.Valid r.key ∧ r.header "window_start" = none ∧
      r.header "window_end" = none) : (reduceWith combine).Restores input SameCounts where
  initial := ⟨fun _ => rfl, fun _ held => absurd rfl held, rfl, rfl⟩
  process := by
    intro a b alike key r mem
    obtain ⟨offset, found⟩ := mem_iff_getElem?.1 mem
    have isData := (input.identified key offset r found).1
    obtain ⟨valid, headers⟩ := plain key r mem
    rw [process_reduceWith combine isData headers, process_reduceWith combine isData headers,
      alike.values r.key]
    refine ⟨rfl, fun other => ?_, fun other held => ?_, alike.before⟩ <;> by_cases same :
      other = r.key
    · rw [same, lookup_insert, lookup_insert]
    · rw [lookup_insert_ne same, lookup_insert_ne same, alike.values other]
    · exact same ▸ valid
    · exact alike.text other (by rwa [lookup_insert_ne same] at held)
  restore := by
    intro a b alike
    have text : (Operator.reduce b).ValidKeys := fun key mem => alike.text key (by
      rw [alike.values key]
      exact isSome_iff_ne_none.1 (AList.lookup_isSome.2 mem))
    have kept : (Operator.reduce b).Kept := le_of_eq alike.before.2.symm
    have contents := (Operator.sameContents_iff kept).2 text
    exact ⟨fun key => (alike.values key).trans (contents key), alike.text, alike.before.1, rfl⟩

theorem length_outputs_reduceWith {history : List Record}
    (plain : ∀ r ∈ history, r.isMarker = false ∧
      r.header "window_start" = none ∧ r.header "window_end" = none) (op : ReduceOperator) :
    ((reduceWith combine).outputs op history).length = history.length := by
  induction history generalizing op with
  | nil => rfl
  | cons r rest ih =>
    obtain ⟨isData, headers⟩ := plain r mem_cons_self
    have single : ((reduceWith combine).step op r).2.length = 1 := by
      simp [StatefulOperator.step, isData, process_reduceWith combine isData headers]
    have tail :=
      ih (fun r mem => plain r (mem_cons_of_mem _ mem)) ((reduceWith combine).step op r).1
    simp only [StatefulOperator.outputs] at tail
    rw [StatefulOperator.outputs, Transducer.outputs, length_append, single, tail, length_cons,
      Nat.add_comm]

end Reduce

instance {σ ν : Type} (j : Job σ ν) : (action : JobAction ν) → Decidable (j.Undisturbed action)
  | .tick _ => inferInstanceAs (Decidable (∀ p ∈ j.restored, p.key ∈ j.injector.offsets))
  | .operate _ =>
    inferInstanceAs (Decidable (∀ id ∈ j.stream.head?.bind barrierID, ¬evicts j.table id))
  | .read _ | .pass | .tap | .protocol _ | .crash => inferInstanceAs (Decidable True)

/-- Two partitions of the topic `orders`, with two records and one. -/
def ordersTopic : Partitions (.kafka "orders") where
  records key :=
    if key = ⟨"orders", 0⟩ then [order 0 0, order 0 1]
    else if key = ⟨"orders", 1⟩ then [order 1 0] else []
  identified key offset r found := by
    split at found
    next same =>
      subst same
      match offset, found with
      | 0, found => cases found; exact ⟨rfl, rfl, rfl⟩
      | 1, found => cases found; exact ⟨rfl, rfl, rfl⟩
    · split at found
      next same =>
        subst same
        match offset, found with
        | 0, found => cases found; exact ⟨rfl, rfl, rfl⟩
      · cases found
  named key delivers := by
    split at delivers
    next same =>
      subst same
      exact ⟨by decide, by decide⟩
    · split at delivers
      next same =>
        subst same
        exact ⟨by decide, by decide⟩
      · exact absurd rfl delivers
  own _ isFile := nomatch isFile

attribute [local instance] TimeText.blank

/-- How many records a key has had, in unary. -/
def counting : StatefulOperator ReduceOperator OperatorSnapshot :=
  reduceWith fun accum _ => some (1 :: accum.getD [])

theorem ordersTopic_plain (key : PositionKey) : ∀ r ∈ ordersTopic.records key, Utf8.Valid r.key ∧
    r.header "window_start" = none ∧ r.header "window_end" = none := by
  intro r mem
  simp only [ordersTopic] at mem
  split_ifs at mem <;> simp at mem
  · rcases mem with rfl | rfl <;> decide
  · subst mem
    decide

def upToSink (keys : List PositionKey) : List (JobAction OperatorSnapshot) :=
  keys.flatMap (fun key => [.read key, .pass]) ++ [.tick .periodic] ++
    replicate (keys.length + 1) (.operate ⟨0, 0, .periodic⟩) ++
    replicate (keys.length + 1) .tap ++
    replicate keys.length (.protocol (.receive true)) ++
    [.protocol (.flush true), .protocol .notify, .protocol .send, .protocol .dequeue,
      .protocol (.persist true), .protocol (.commit .done)]

/-- A crash right after the broker has committed the transaction: recovery finds the marker, and
the job resumes behind both records. -/
theorem exactly_once_crash_after_commit :
    ∃ j : Job ReduceOperator OperatorSnapshot, j.position ⟨"orders", 0⟩ = 1 ∧
      j.position ⟨"orders", 1⟩ = 1 ∧
      j.run.topic.visible.length = 2 ∧ VisibleOnce ordersTopic counting (.accepting none) j := by
  obtain ⟨j, reach, facts⟩ := Reach.exists_of_guarded
    (Job.step (.kafka "orders") ordersTopic counting (.accepting none)) Job.Undisturbed
    (.start (.kafka "orders") counting) (upToSink [⟨"orders", 0⟩, ⟨"orders", 1⟩] ++ [.crash])
    (fun j => decide (j.position ⟨"orders", 0⟩ = 1 ∧ j.position ⟨"orders", 1⟩ = 1 ∧
      j.run.topic.visible.length = 2)) (by decide)
  obtain ⟨first, second, visible⟩ := of_decide_eq_true facts
  exact ⟨j, first, second, visible, exactly_once (.kafka "orders") ordersTopic counting
    (restores_reduceWith _ ordersTopic_plain) none j reach⟩

/-- Both partitions are committed; after a restart only the first delivers, and the next
committed checkpoint has lost the position of the second, whose record is visible already. -/
theorem quiet_partition_visible_twice :
    ¬∀ j, Reach (Job.step (.kafka "orders") ordersTopic counting (.accepting none)) Always
      (.start (.kafka "orders") counting) j →
        VisibleOnce ordersTopic counting (.accepting none) j := by
  intro once
  obtain ⟨j, reach, facts⟩ := Reach.exists_of_run
    (Job.step (.kafka "orders") ordersTopic counting (.accepting none))
    (.start (.kafka "orders") counting)
    (upToSink [⟨"orders", 0⟩, ⟨"orders", 1⟩] ++ [.crash] ++ upToSink [⟨"orders", 0⟩])
    (fun j => decide (j.run.topic.visible.length = 3 ∧
      seekOffset (committedPositions j.run.store j.run.topic) ⟨"orders", 1⟩ = 0)) (by decide)
  obtain ⟨visible, lost⟩ := of_decide_eq_true facts
  obtain ⟨history, below, messages, all, written⟩ := once j reach
  have listed : ∀ r ∈ history, r ∈ (ordersTopic.records (positionKey r)).take
      (seekOffset (committedPositions j.run.store j.run.topic) (positionKey r)) := fun r mem =>
    below (positionKey r) ▸ mem_filter.2 ⟨mem, decide_eq_true rfl⟩
  have long : history.length = 3 := by
    have plain : ∀ r ∈ history, r.isMarker = false ∧ r.header "window_start" = none ∧
        r.header "window_end" = none := by
      intro r mem
      have stored := mem_of_mem_take (listed r mem)
      obtain ⟨offset, found⟩ := mem_iff_getElem?.1 stored
      exact ⟨(ordersTopic.identified _ offset r found).1, (ordersTopic_plain _ r stored).2⟩
    have same := congrArg length all
    rw [length_map, length_map, counting, length_outputs_reduceWith _ plain] at same
    rw [← visible, ← written, nil_append, same]
  -- every record of the history is one of the first partition, which has two
  have only : ofKey ⟨"orders", 0⟩ history = history := by
    refine filter_eq_self.2 fun r inside => decide_eq_true ?_
    have stored := listed r inside
    by_cases first : positionKey r = ⟨"orders", 0⟩
    · exact first
    · by_cases second : positionKey r = ⟨"orders", 1⟩
      · rw [second, lost, take_zero] at stored
        cases stored
      · simp [ordersTopic, first, second] at stored
  have short : (ofKey ⟨"orders", 0⟩ history).length ≤ 2 := by
    rw [below, length_take]
    exact Nat.min_le_right _ _
  rw [only, long] at short
  exact absurd short (by decide)

end Weibo.Engine
