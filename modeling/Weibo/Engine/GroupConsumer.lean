import Weibo.Engine.Injector

/-!
# A checkpointed consumer group with eager commits

`KafkaSource` in serial mode with `exactlyOnce` off emits the record of a message and commits its
offset to the group. `applyRestoredGroupOffsets` overwrites the group's offsets with the restored
positions; other partitions resume from the group's offset.
-/

namespace Weibo.Engine

open Weibo.Source List Option Function AList
open Transition (Reach Always run)

/-- `OffsetSpec.Mode`: where a partition without a group offset starts. -/
inductive OffsetMode
  | earliest
  | latest
  deriving DecidableEq

structure GroupConfig where
  legacyTopic : String
  startFrom : OffsetMode
  commitBatch : Nat

structure Message where
  key : PositionKey
  offset : Int
  deriving DecidableEq

inductive SerialLoop
  | fetch
  | deliver (m : Message)
  | commit (ms : List Message)
  deriving DecidableEq

structure Consumer where
  log : PositionKey → List Record := fun _ => []
  groupOffsets : OffsetMap := ∅
  joined : OffsetMap := ∅
  position : PositionKey → Int
  loop : SerialLoop := .fetch
  pending : List Message := []
  fetched : List Message := []
  edge : List Record := []
  injector : Injector := { runNonce := 0 }
  inFlight : List PositionData := []
  latest : Option PositionData := none

inductive ConsumerEvent
  | produce (key : PositionKey) (r : Record)
  | fetch (key : PositionKey)
  | skip
  | emit
  | commit (applied : Bool)
  | pass
  | barrier
  | save
  | drop
  | crash

def OffsetMap.insertAll (offsets : OffsetMap) (entries : List (PositionKey × Int)) : OffsetMap :=
  entries.foldl (fun acc e => acc.insert e.1 e.2) offsets

def OffsetMap.commit (offsets : OffsetMap) (ms : List Message) : OffsetMap :=
  offsets.insertAll (ms.map fun m => (m.key, m.offset + 1))

def OffsetMap.overwrite (offsets : OffsetMap) (positions : List Position) : OffsetMap :=
  offsets.insertAll (positions.map fun p => (p.key, p.offset))

namespace Consumer

/-- `KafkaToRecord`: the record of a message. -/
def toRecord (c : Consumer) (m : Message) : Record :=
  { (c.log m.key).getD m.offset.toNat {} with
    source := m.key.source, partition := m.key.partition, offset := m.offset }

def restored (cfg : GroupConfig) (c : Consumer) : List Position :=
  match c.latest.map (CheckpointSource.kafka cfg.legacyTopic).restoreOffset with
  | some (.ok positions) => positions
  | _ => []

def resume (cfg : GroupConfig) (log : PositionKey → List Record) (offsets : OffsetMap)
    (key : PositionKey) : Int :=
  match offsets.lookup key with
  | some offset => offset
  | none =>
    match cfg.startFrom with
    | .earliest => 0
    | .latest => (log key).length

/-- The next run: `applyRestoredGroupOffsets`, then the reader joins. -/
def restart (cfg : GroupConfig) (c : Consumer) : Consumer where
  log := c.log
  groupOffsets := c.groupOffsets.overwrite (c.restored cfg)
  joined := c.groupOffsets.overwrite (c.restored cfg)
  position := resume cfg c.log (c.groupOffsets.overwrite (c.restored cfg))
  injector := { runNonce := c.injector.runNonce + 1 }
  latest := c.latest

def start : Consumer := { position := fun _ => 0 }

def step (cfg : GroupConfig) (c : Consumer) : ConsumerEvent → Option Consumer
  | .produce key r => some { c with log := update c.log key (c.log key ++ [r]) }
  | .fetch key =>
    if c.loop = .fetch ∧ 0 ≤ c.position key ∧ c.position key < (c.log key).length then
      some { c with
        loop := .deliver ⟨key, c.position key⟩
        position := update c.position key (c.position key + 1)
        fetched := c.fetched ++ [⟨key, c.position key⟩] }
    else none
  | .skip =>
    match c.loop with
    | .deliver _ => some { c with loop := .fetch }
    | _ => none
  | .emit =>
    match c.loop with
    | .deliver m =>
      if cfg.commitBatch = 0 then
        some { c with edge := c.edge ++ [c.toRecord m], loop := .commit [m] }
      else if cfg.commitBatch ≤ c.pending.length + 1 then
        some { c with
          edge := c.edge ++ [c.toRecord m], loop := .commit (c.pending ++ [m]), pending := [] }
      else
        some { c with
          edge := c.edge ++ [c.toRecord m], loop := .fetch, pending := c.pending ++ [m] }
    | _ => none
  | .commit applied =>
    match c.loop with
    | .commit ms =>
      some { c with
        loop := .fetch
        groupOffsets := if applied then c.groupOffsets.commit ms else c.groupOffsets }
    | _ => none
  | .pass =>
    match c.edge with
    | [] => none
    | r :: rest => some { c with edge := rest, injector := c.injector.pass r }
  | .barrier =>
    some { c with
      injector := c.injector.barrier
      inFlight := c.inFlight ++ [c.injector.alignedOffsets] }
  | .save =>
    match c.inFlight with
    | [] => none
    | data :: rest => some { c with inFlight := rest, latest := some data }
  | .drop =>
    match c.inFlight with
    | [] => none
    | _ :: rest => some { c with inFlight := rest }
  | .crash => some (c.restart cfg)

end Consumer

/-- After a crash now, the next run reads again every message fetched by this run that the
positions it restores do not cover. -/
def Rereads (cfg : GroupConfig) (c : Consumer) : Prop :=
  ∀ m ∈ c.fetched, (∀ p ∈ c.restored cfg, p.key = m.key → p.offset ≤ m.offset) →
    (c.restart cfg).position m.key ≤ m.offset

/-- No partition that the restored checkpoint leaves out has lost its place: the group's
offset is the one this run joined with, and a group without one starts from the beginning. -/
def Uncommitted (cfg : GroupConfig) (c : Consumer) : Prop :=
  ∀ m ∈ c.fetched, m.key ∉ (c.restored cfg).map Position.key →
    c.groupOffsets.lookup m.key = c.joined.lookup m.key ∧
      (cfg.startFrom = .earliest ∨ m.key ∈ c.joined)

/-! ## The invariant of a run -/

theorem OffsetMap.lookup_insertAll (offsets : OffsetMap) (entries : List (PositionKey × Int))
    (key : PositionKey) :
    (key ∉ entries.map Prod.fst ∧ (offsets.insertAll entries).lookup key = offsets.lookup key) ∨
      ∃ e ∈ entries, e.1 = key ∧ (offsets.insertAll entries).lookup key = some e.2 := by
  induction entries generalizing offsets with
  | nil => exact .inl ⟨by simp, rfl⟩
  | cons e rest ih =>
    rcases ih (offsets.insert e.1 e.2) with ⟨absent, found⟩ | ⟨later, mem, same, found⟩
    · by_cases here : e.1 = key
      · refine .inr ⟨e, mem_cons_self .., here, found.trans ?_⟩
        rw [here, lookup_insert]
      · refine .inl ⟨by simpa [Ne.symm here] using absent, found.trans ?_⟩
        rw [lookup_insert_ne (Ne.symm here)]
    · exact .inr ⟨later, mem_cons_of_mem _ mem, same, found⟩

structure Consumer.Inv (c : Consumer) : Prop where
  fetched : ∀ m ∈ c.fetched, 0 ≤ m.offset ∧ m.offset < (c.log m.key).length ∧
    ∀ offset ∈ c.joined.lookup m.key, offset ≤ m.offset
  position : ∀ key, ∀ offset ∈ c.joined.lookup key, offset ≤ c.position key
  held : (∀ m ∈ c.pending, m ∈ c.fetched) ∧
    match c.loop with
    | .fetch => True
    | .deliver m => m ∈ c.fetched
    | .commit ms => ∀ m ∈ ms, m ∈ c.fetched
  moved : ∀ key, c.groupOffsets.lookup key = c.joined.lookup key ∨
    ∃ m ∈ c.fetched, m.key = key ∧ c.groupOffsets.lookup key = some (m.offset + 1)

namespace Consumer

variable {cfg : GroupConfig} {c t : Consumer}

theorem inv_start : Inv start :=
  ⟨by simp [start], by simp [start], by simp [start], fun _ => .inl rfl⟩

theorem inv_restart : Inv (c.restart cfg) := by
  refine ⟨by simp [restart], fun key offset found => ?_, by simp [restart], fun _ => .inl rfl⟩
  have here : (c.groupOffsets.overwrite (c.restored cfg)).lookup key = some offset := found
  simp [restart, resume, here]

variable {key : PositionKey}

theorem Inv.fetch (inv : Inv c) (lower : 0 ≤ c.position key)
    (upper : c.position key < (c.log key).length) :
    Inv { c with
      loop := .deliver ⟨key, c.position key⟩
      position := update c.position key (c.position key + 1)
      fetched := c.fetched ++ [⟨key, c.position key⟩] } := by
  refine ⟨?_, ?_, ⟨fun m mem => mem_append_left _ (inv.held.1 m mem), by simp⟩, ?_⟩
  · intro m mem
    rcases mem_append.1 mem with old | new
    · exact inv.fetched m old
    · obtain rfl := mem_singleton.1 new
      exact ⟨lower, upper, inv.position key⟩
  · intro other offset found
    have before := inv.position other offset found
    by_cases same : other = key
    · subst same
      simp only [update_self]
      omega
    · simpa [same] using before
  · intro other
    rcases inv.moved other with same | ⟨m, mem, rest⟩
    · exact .inl same
    · exact .inr ⟨m, mem_append_left _ mem, rest⟩

theorem Inv.commit (inv : Inv c) {ms : List Message} (known : ∀ m ∈ ms, m ∈ c.fetched)
    (key : PositionKey) : (c.groupOffsets.commit ms).lookup key = c.joined.lookup key ∨
      ∃ m ∈ c.fetched, m.key = key ∧
        (c.groupOffsets.commit ms).lookup key = some (m.offset + 1) := by
  rcases OffsetMap.lookup_insertAll c.groupOffsets (ms.map fun m => (m.key, m.offset + 1)) key
    with ⟨-, found⟩ | ⟨e, mem, same, found⟩
  · simp only [OffsetMap.commit, found]
    exact inv.moved key
  · obtain ⟨m, inside, rfl⟩ := List.mem_map.1 mem
    exact .inr ⟨m, known m inside, same, found⟩

theorem inv_step {e : ConsumerEvent} (inv : Inv c) (moves : c.step cfg e = some t) : Inv t := by
  cases e with simp only [step] at moves
  | produce key r =>
    cases moves
    refine { inv with fetched := fun m mem => ?_ }
    obtain ⟨lower, upper, above⟩ := inv.fetched m mem
    refine ⟨lower, ?_, above⟩
    by_cases same : m.key = key
    · simp only [same, update_self, length_append, length_singleton]
      rw [same] at upper
      omega
    · simpa [same] using upper
  | fetch key =>
    split at moves
    next ready =>
      exact some.inj moves ▸ inv.fetch ready.2.1 ready.2.2
    · cases moves
  | skip =>
    split at moves
    · exact some.inj moves ▸ ⟨inv.fetched, inv.position, ⟨inv.held.1, trivial⟩, inv.moved⟩
    · cases moves
  | emit =>
    split at moves
    next m now =>
      obtain ⟨batched, known⟩ := inv.held
      rw [now] at known
      have joined : ∀ x ∈ c.pending ++ [m], x ∈ c.fetched := by
        intro x mem
        rcases mem_append.1 mem with old | new
        · exact batched x old
        · exact mem_singleton.1 new ▸ known
      split at moves
      · exact some.inj moves ▸ ⟨inv.fetched, inv.position,
          ⟨batched, fun x mem => mem_singleton.1 mem ▸ known⟩, inv.moved⟩
      · split at moves
        · exact some.inj moves ▸ ⟨inv.fetched, inv.position, ⟨by simp, joined⟩, inv.moved⟩
        · exact some.inj moves ▸ ⟨inv.fetched, inv.position, ⟨joined, trivial⟩, inv.moved⟩
    · cases moves
  | commit applied =>
    split at moves
    next ms now =>
      obtain ⟨batched, known⟩ := inv.held
      rw [now] at known
      cases moves
      refine ⟨inv.fetched, inv.position, ⟨batched, trivial⟩, fun key => ?_⟩
      cases applied with
      | true => exact inv.commit known key
      | false => exact inv.moved key
    · cases moves
  | pass | save | drop =>
    split at moves
    · cases moves
    · exact some.inj moves ▸ ⟨inv.fetched, inv.position, inv.held, inv.moved⟩
  | barrier => exact some.inj moves ▸ ⟨inv.fetched, inv.position, inv.held, inv.moved⟩
  | crash => exact some.inj moves ▸ inv_restart

theorem restart_position_of_absent (absent : key ∉ (c.restored cfg).map Position.key) :
    (c.restart cfg).position key = resume cfg c.log c.groupOffsets key := by
  rcases OffsetMap.lookup_insertAll c.groupOffsets
    ((c.restored cfg).map fun p => (p.key, p.offset)) key with ⟨-, found⟩ | ⟨e, mem, same, -⟩
  · simp only [restart, resume, OffsetMap.overwrite, found]
  · obtain ⟨p, inside, rfl⟩ := List.mem_map.1 mem
    exact absurd (List.mem_map.2 ⟨p, inside, same⟩) absent

theorem restart_position_of_restored (present : key ∈ (c.restored cfg).map Position.key) :
    ∃ p ∈ c.restored cfg, p.key = key ∧ (c.restart cfg).position key = p.offset := by
  rcases OffsetMap.lookup_insertAll c.groupOffsets
    ((c.restored cfg).map fun p => (p.key, p.offset)) key with ⟨absent, -⟩ | ⟨e, mem, same, found⟩
  · simp only [List.map_map] at absent
    exact absurd present absent
  · obtain ⟨p, inside, rfl⟩ := List.mem_map.1 mem
    exact ⟨p, inside, same, by simp only [restart, resume, OffsetMap.overwrite, found]⟩

end Consumer

/-- In every reachable state of every history of runs: a crash now leaves no uncovered record
unread exactly when no partition the restored checkpoint leaves out has lost its place. -/
theorem group_rereads_iff (cfg : GroupConfig) (c : Consumer)
    (reach : Reach (Consumer.step cfg) Always Consumer.start c) :
    Rereads cfg c ↔ Uncommitted cfg c := by
  have inv : c.Inv := reach.invariant Consumer.inv_start
    fun _ _ _ inv _ moves => Consumer.inv_step inv moves
  constructor
  · intro rereads m mem absent
    have uncovered : ∀ x ∈ c.fetched, x.key = m.key →
        Consumer.resume cfg c.log c.groupOffsets x.key ≤ x.offset := by
      intro x memx same
      rw [← Consumer.restart_position_of_absent (same ▸ absent)]
      refine rereads x memx fun p restored key => ?_
      exact absurd (List.mem_map.2 ⟨p, restored, key.trans same⟩) absent
    have unmoved : c.groupOffsets.lookup m.key = c.joined.lookup m.key := by
      rcases inv.moved m.key with same | ⟨x, memx, same, found⟩
      · exact same
      · have behind := uncovered x memx same
        rw [same, Consumer.resume, found] at behind
        simp only at behind
        omega
    refine ⟨unmoved, ?_⟩
    by_contra late
    rw [not_or] at late
    have none : c.joined.lookup m.key = none := lookup_eq_none.2 late.2
    have behind := uncovered m mem rfl
    have inside := (inv.fetched m mem).2.1
    cases start : cfg.startFrom with
    | earliest => exact late.1 start
    | latest =>
      simp only [Consumer.resume, unmoved, none, start] at behind
      omega
  · intro uncommitted m mem uncovered
    by_cases present : m.key ∈ (c.restored cfg).map Position.key
    · obtain ⟨p, restored, key, position⟩ := Consumer.restart_position_of_restored present
      rw [position]
      exact uncovered p restored key
    · obtain ⟨unmoved, start⟩ := uncommitted m mem present
      obtain ⟨lower, -, above⟩ := inv.fetched m mem
      rw [Consumer.restart_position_of_absent present, Consumer.resume, unmoved]
      cases found : c.joined.lookup m.key with
      | some offset => exact above offset found
      | none =>
        have earliest : cfg.startFrom = .earliest :=
          start.resolve_right (lookup_eq_none.1 found)
        simpa [earliest] using lower

def orders : PositionKey := ⟨"orders", 0⟩

/-- A message fetched and not yet committed is read again. -/
theorem group_rereads_iff_fetched :
    ∃ c, Reach (Consumer.step ⟨"orders", .earliest, 0⟩) Always Consumer.start c ∧
      c.fetched = [⟨orders, 0⟩] ∧ Rereads ⟨"orders", .earliest, 0⟩ c := by
  obtain ⟨c, reach, facts⟩ := Reach.exists_of_run
    (Consumer.step ⟨"orders", .earliest, 0⟩) Consumer.start
    [.produce orders {}, .fetch orders, .emit]
    (fun c => decide (c.fetched = [⟨orders, 0⟩] ∧
      c.groupOffsets.lookup orders = c.joined.lookup orders)) (by decide)
  obtain ⟨fetched, unmoved⟩ := of_decide_eq_true facts
  refine ⟨c, reach, fetched, (group_rereads_iff _ c reach).2 fun m mem _ => ⟨?_, .inl rfl⟩⟩
  rw [fetched, mem_singleton] at mem
  exact mem ▸ unmoved

/-- A message emitted and committed before the first checkpoint is not read again. -/
theorem committed_before_checkpoint_lost :
    ¬∀ c, Reach (Consumer.step ⟨"orders", .earliest, 0⟩) Always Consumer.start c →
      Rereads ⟨"orders", .earliest, 0⟩ c := by
  intro always
  obtain ⟨c, reach, facts⟩ := Reach.exists_of_run
    (Consumer.step ⟨"orders", .earliest, 0⟩) Consumer.start
    [.produce orders {}, .fetch orders, .emit, .commit true]
    (fun c => decide (c.fetched = [⟨orders, 0⟩] ∧ c.restored ⟨"orders", .earliest, 0⟩ = [] ∧
      (c.restart ⟨"orders", .earliest, 0⟩).position orders = 1)) (by decide)
  obtain ⟨fetched, restored, resumed⟩ := of_decide_eq_true facts
  have behind := always c reach ⟨orders, 0⟩ (by simp [fetched]) (by simp [restored])
  rw [resumed] at behind
  exact absurd behind (by decide)

end Weibo.Engine
