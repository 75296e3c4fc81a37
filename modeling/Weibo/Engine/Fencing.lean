import Weibo.Checkpoint.Storage
import Weibo.Lib.Transition
import Weibo.Sink.TxnBroker

/-!
# Recovery against a broker that is still deciding

The processes of a job share a storage, a transactional id and a marker topic. A crashed process
makes no more moves, but its commit request may be on its way; one only believed dead goes on. Other
applications write to the topic.
-/

namespace Weibo.Engine

open Checkpoint Sink List Option
open Transition (Reach Always of_ite_some)

structure TxnJob where
  txnID : String
  partitions : Nat

inductive ProcPhase (π ν : Type) where
  | off
  | probing (latest : CheckpointData π ν) (boundaries : Nat → Option Nat) (positions : Nat → Nat)
  | promoting (latest : CheckpointData π ν)
  | recovered (restored : Option (CheckpointData π ν))
  | running (epoch : Nat) (txn : Option Nat)
  | flushed (epoch txn : Nat) (id : CheckpointID)
  | stored (epoch txn : Nat) (id : CheckpointID)
  | committing (epoch txn : Nat) (id : CheckpointID)
  | committed (epoch : Nat) (id : CheckpointID)
  | stopped

def ProcPhase.probed {π ν : Type} : ProcPhase π ν → Option CheckpointID
  | .probing latest _ _ => some latest.id
  | _ => none

structure Proc (π ν : Type) where
  phase : ProcPhase π ν := .off
  next : Nat := 0

structure Cluster (π ν : Type) where
  broker : TxnBroker := {}
  store : Storage π ν := []
  procs : Nat → Proc π ν := fun _ => {}
  discarded : List (CheckpointID × Option (CheckpointData π ν)) := []

inductive ClusterAction (π ν : Type) where
  | start (p : Nat)
  | boundary (p part : Nat)
  | fetch (p part next : Nat)
  | fallBack (p : Nat)
  | promote (p : Nat)
  | fail (p : Nat)
  | initProducer (p : Nat)
  | beginTransaction (p : Nat)
  | produce (p : Nat) (message : TxnMessage)
  | mark (p part : Nat) (kind : BarrierKind)
  | save (p : Nat) (source : Option π) (operators : Option ν)
  | commit (p : Nat)
  | acknowledge (p : Nat)
  | complete (p : Nat)
  | abort (p : Nat)
  | deliver (request : CommitRequest)
  | expire (txn : Nat)
  | foreignInit (owner : String)
  | foreignBegin (owner : String)
  | foreignMark (txn part : Nat) (value : CheckpointID)
  | foreignEnd (txn : Nat) (committed : Bool)

namespace Cluster

variable {π ν : Type}

def enter (s : Cluster π ν) (p : Nat) (phase : ProcPhase π ν) : Cluster π ν :=
  { s with procs := fun q => if q = p then { s.procs p with phase } else s.procs q }

/-- `Load` at the start of recovery. -/
def start (s : Cluster π ν) (p : Nat) : Option (Cluster π ν) :=
  match (s.procs p).phase with
  | .off =>
    match s.store.load with
    | none => some (s.enter p (.recovered none))
    | some latest =>
      if latest.completed then some (s.enter p (.recovered (some latest)))
      else some (s.enter p (.probing latest (fun _ => none) fun _ => 0))
  | _ => none

def boundary (job : TxnJob) (s : Cluster π ν) (p part : Nat) : Option (Cluster π ν) :=
  match (s.procs p).phase with
  | .probing latest boundaries positions =>
    if part < job.partitions ∧ boundaries part = none then
      let read :=
        fun other => if other = part then some (s.broker.lastStable part) else boundaries other
      some (s.enter p (.probing latest read positions))
    else none
  | _ => none

def allBoundaries (job : TxnJob) (boundaries : Nat → Option Nat) (holds : Nat → Nat → Bool) :
    Bool :=
  (List.range job.partitions).all fun part => (boundaries part).any (holds part)

def fetch (job : TxnJob) (s : Cluster π ν) (p part next : Nat) : Option (Cluster π ν) :=
  match (s.procs p).phase with
  | .probing latest boundaries positions =>
    if allBoundaries job boundaries (fun _ _ => true) ∧ part < job.partitions ∧
        (boundaries part).any (positions part < ·) ∧ positions part < next ∧
        next ≤ s.broker.lastStable part then
      if (s.broker.readCommitted part (positions part) next).any fun marker =>
          decide (marker.key = job.txnID ∧ marker.value = latest.id) then
        some (s.enter p (.promoting latest))
      else
        let moved := fun other => if other = part then next else positions other
        some (s.enter p (.probing latest boundaries moved))
    else none
  | _ => none

def fallBack (job : TxnJob) (s : Cluster π ν) (p : Nat) : Option (Cluster π ν) :=
  match (s.procs p).phase with
  | .probing latest boundaries positions =>
    if allBoundaries job boundaries (fun part boundary => boundary ≤ positions part) then
      let restored := s.store.loadLatestCompleted
      some { s.enter p (.recovered restored) with
        discarded := s.discarded ++ [(latest.id, restored)] }
    else none
  | _ => none

def promote (s : Cluster π ν) (p : Nat) : Option (Cluster π ν) :=
  match (s.procs p).phase with
  | .promoting latest =>
    (s.store.updateStatus latest.id .completed).map fun store =>
      { s.enter p (.recovered (some { latest with status := .completed })) with store }
  | _ => none

def initProducer (job : TxnJob) (s : Cluster π ν) (p : Nat) : Option (Cluster π ν) :=
  match (s.procs p).phase with
  | .recovered _ =>
    some { s.enter p (.running (s.broker.epochs job.txnID + 1) none) with
      broker := s.broker.initProducer job.txnID }
  | _ => none

def beginTransaction (job : TxnJob) (s : Cluster π ν) (p : Nat) : Option (Cluster π ν) :=
  match (s.procs p).phase with
  | .running epoch none =>
    if s.broker.epochs job.txnID = epoch then
      some { s.enter p (.running epoch (some s.broker.txns.length)) with
        broker := s.broker.beginTransaction job.txnID epoch }
    else none
  | _ => none

def produce (s : Cluster π ν) (p : Nat) (message : TxnMessage) : Option (Cluster π ν) :=
  match (s.procs p).phase with
  | .running epoch (some txn) =>
    if s.broker.live txn epoch then some { s with broker := s.broker.produce txn message } else none
  | _ => none

def mark (job : TxnJob) (s : Cluster π ν) (p part : Nat) (kind : BarrierKind) :
    Option (Cluster π ν) :=
  match (s.procs p).phase with
  | .running epoch (some txn) =>
    if s.broker.live txn epoch ∧ part < job.partitions then
      let id : CheckpointID := ⟨p, (s.procs p).next, kind⟩
      some { s with
        broker := s.broker.mark part ⟨txn, job.txnID, id⟩
        procs := fun q =>
          if q = p then ⟨.flushed epoch txn id, (s.procs p).next + 1⟩ else s.procs q }
    else none
  | _ => none

def save (s : Cluster π ν) (p : Nat) (source : Option π) (operators : Option ν) :
    Option (Cluster π ν) :=
  match (s.procs p).phase with
  | .flushed epoch txn id =>
    some { s.enter p (.stored epoch txn id) with
      store := s.store.save { id, source, operators, status := .prepared } }
  | _ => none

def commit (s : Cluster π ν) (p : Nat) : Option (Cluster π ν) :=
  match (s.procs p).phase with
  | .stored epoch txn id =>
    some { s.enter p (.committing epoch txn id) with
      broker := { s.broker with requests := s.broker.requests ++ [⟨txn, epoch⟩] } }
  | _ => none

def acknowledge (s : Cluster π ν) (p : Nat) : Option (Cluster π ν) :=
  match (s.procs p).phase with
  | .committing epoch txn id =>
    if s.broker.status txn = .committed then some (s.enter p (.committed epoch id)) else none
  | _ => none

def complete (s : Cluster π ν) (p : Nat) : Option (Cluster π ν) :=
  match (s.procs p).phase with
  | .committed epoch id =>
    (s.store.updateStatus id .completed).map fun store =>
      { s.enter p (.running epoch none) with store }
  | _ => none

def abort (s : Cluster π ν) (p : Nat) : Option (Cluster π ν) :=
  match (s.procs p).phase with
  | .running epoch (some txn) | .flushed epoch txn _ | .stored epoch txn _
  | .committing epoch txn _ =>
    if s.broker.live txn epoch then
      some { s.enter p (.running epoch none) with broker := s.broker.decideTxn txn .aborted }
    else none
  | _ => none

def foreign (job : TxnJob) (s : Cluster π ν) (txn : Nat) : Bool :=
  (s.broker.txns[txn]?).any fun t => decide (t.owner ≠ job.txnID)

def step (job : TxnJob) (s : Cluster π ν) : ClusterAction π ν → Option (Cluster π ν)
  | .start p => s.start p
  | .boundary p part => s.boundary job p part
  | .fetch p part next => s.fetch job p part next
  | .fallBack p => s.fallBack job p
  | .promote p => s.promote p
  | .fail p => some (s.enter p .stopped)
  | .initProducer p => s.initProducer job p
  | .beginTransaction p => s.beginTransaction job p
  | .produce p message => s.produce p message
  | .mark p part kind => s.mark job p part kind
  | .save p source operators => s.save p source operators
  | .commit p => s.commit p
  | .acknowledge p => s.acknowledge p
  | .complete p => s.complete p
  | .abort p => s.abort p
  | .deliver request =>
    if request ∈ s.broker.requests then some { s with broker := s.broker.deliver request } else none
  | .expire txn => some { s with broker := s.broker.decideTxn txn .aborted }
  | .foreignInit owner =>
    if owner ≠ job.txnID then some { s with broker := s.broker.initProducer owner } else none
  | .foreignBegin owner =>
    if owner ≠ job.txnID then
      some { s with broker := s.broker.beginTransaction owner (s.broker.epochs owner) }
    else none
  | .foreignMark txn part value =>
    match s.broker.txns[txn]? with
    | some t =>
      if t.owner ≠ job.txnID then
        some { s with broker := s.broker.mark part ⟨txn, t.owner, value⟩ }
      else none
    | none => none
  | .foreignEnd txn committed =>
    if s.foreign job txn then
      some { s with
        broker := s.broker.decideTxn txn (if committed then .committed else .aborted) }
    else none

/-! ## When the decision is final -/

/-- When the probe reads the stable offset of a partition, no marker of the checkpoint is at or
behind it. -/
def ProbesStable (job : TxnJob) (s : Cluster π ν) : ClusterAction π ν → Prop
  | .boundary p part => ∀ id ∈ (s.procs p).phase.probed,
      ∀ marker ∈ (s.broker.markers part).drop (s.broker.lastStable part),
        ¬(marker.key = job.txnID ∧ marker.value = id)
  | _ => True

instance (job : TxnJob) (s : Cluster π ν) : (action : ClusterAction π ν) →
    Decidable (ProbesStable job s action)
  | .boundary p part => inferInstanceAs (Decidable (∀ id ∈ (s.procs p).phase.probed,
      ∀ marker ∈ (s.broker.markers part).drop (s.broker.lastStable part),
        ¬(marker.key = job.txnID ∧ marker.value = id)))
  | .start _ | .fetch _ _ _ | .fallBack _ | .promote _ | .fail _ | .initProducer _
  | .beginTransaction _ | .produce _ _ | .mark _ _ _ | .save _ _ _ | .commit _ | .acknowledge _
  | .complete _ | .abort _ | .deliver _ | .expire _ | .foreignInit _ | .foreignBegin _
  | .foreignMark _ _ _ | .foreignEnd _ _ => inferInstanceAs (Decidable True)

structure Marked (job : TxnJob) (b : TxnBroker) (id : CheckpointID) (part offset : Nat)
    (marker : MarkerRecord) : Prop where
  there : (b.markers part)[offset]? = some marker
  key : marker.key = job.txnID
  value : marker.value = id

def Dropped (job : TxnJob) (b : TxnBroker) (id : CheckpointID) : Prop :=
  ∃ part offset marker, Marked job b id part offset marker ∧ b.status marker.txn = .aborted

def Probed (job : TxnJob) (b : TxnBroker) (id : CheckpointID) (boundaries : Nat → Option Nat)
    (positions : Nat → Nat) : Prop :=
  ∃ part offset marker, part < job.partitions ∧ Marked job b id part offset marker ∧
    (∀ boundary, boundaries part = some boundary → offset < boundary) ∧
    (offset < positions part → b.status marker.txn = .aborted)

def Sound (job : TxnJob) (b : TxnBroker) : ProcPhase π ν → Prop
  | .probing latest boundaries positions => Probed job b latest.id boundaries positions
  | .flushed _ _ id =>
    ∃ part offset marker, part < job.partitions ∧ Marked job b id part offset marker
  | _ => True

structure Inv (job : TxnJob) (s : Cluster π ν) : Prop where
  fresh : ∀ id part offset marker, Marked job s.broker id part offset marker →
    id.number < (s.procs id.runNonce).next
  unique : ∀ id part offset marker part' offset' marker',
    Marked job s.broker id part offset marker → Marked job s.broker id part' offset' marker' →
    marker = marker'
  stored : ∀ data ∈ s.store, ∃ part offset marker, part < job.partitions ∧
    Marked job s.broker data.id part offset marker
  phases : ∀ p, Sound job s.broker (s.procs p).phase
  discarded : ∀ entry ∈ s.discarded, Dropped job s.broker entry.1

variable {job : TxnJob} {s t : Cluster π ν}

variable {b c : TxnBroker} {id : CheckpointID} {part : Nat}

theorem Marked.later {offset : Nat} {marker : MarkerRecord}
    (marked : Marked job b id part offset marker) (later : b.Later c) :
    Marked job c id part offset marker := ⟨later.getElem? marked.there, marked.key, marked.value⟩

theorem aborted_later (later : b.Later c) {k : Nat} (aborted : b.status k = .aborted) :
    c.status k = .aborted := by
  rw [later.decided k (by simp [aborted]), aborted]

theorem sound_later (later : b.Later c) {phase : ProcPhase π ν}
    (sound : Sound job b phase) : Sound job c phase := by
  cases phase with
  | probing latest boundaries positions =>
    obtain ⟨part, offset, marker, inside, marked, bounded, passed⟩ := sound
    exact ⟨part, offset, marker, inside, marked.later later, bounded, fun reached =>
      aborted_later later (passed reached)⟩
  | flushed epoch txn id =>
    obtain ⟨part, offset, marker, inside, marked⟩ := sound
    exact ⟨part, offset, marker, inside, marked.later later⟩
  | off | promoting _ | recovered _ | running _ _ | stored _ _ _ | committing _ _ _ | committed _ _
  | stopped => trivial

theorem Inv.frame (inv : Inv job s) (later : s.broker.Later t.broker)
    (own : ∀ id part offset marker, Marked job t.broker id part offset marker →
      Marked job s.broker id part offset marker) (next : ∀ p, (s.procs p).next ≤ (t.procs p).next)
    (store : ∀ data ∈ t.store, ∃ old ∈ s.store, old.id = data.id)
    (phases : ∀ p, (t.procs p).phase = (s.procs p).phase ∨ Sound job t.broker (t.procs p).phase)
    (discarded : ∀ entry ∈ t.discarded, entry ∈ s.discarded ∨ Dropped job t.broker entry.1) :
      Inv job t := by
  refine ⟨?_, ?_, ?_, ?_, ?_⟩
  · intro id part offset marker marked
    exact Nat.lt_of_lt_of_le (inv.fresh id part offset marker (own _ _ _ _ marked)) (next _)
  · intro id part offset marker part' offset' marker' first second
    exact inv.unique id part offset marker part' offset' marker' (own _ _ _ _ first)
      (own _ _ _ _ second)
  · intro data mem
    obtain ⟨old, inside, same⟩ := store data mem
    obtain ⟨part, offset, marker, bound, marked⟩ := inv.stored old inside
    exact ⟨part, offset, marker, bound, same ▸ marked.later later⟩
  · intro p
    rcases phases p with same | sound
    · rw [same]
      exact sound_later later (inv.phases p)
    · exact sound
  · intro entry mem
    rcases discarded entry mem with before | dropped
    · obtain ⟨part, offset, marker, marked, aborted⟩ := inv.discarded entry before
      exact ⟨part, offset, marker, marked.later later, aborted_later later aborted⟩
    · exact dropped

theorem Inv.enter (inv : Inv job s) (p : Nat) (phase : ProcPhase π ν)
    (sound : Sound job s.broker phase) : Inv job (s.enter p phase) := by
  refine inv.frame (.refl _) (fun _ _ _ _ marked => marked) (fun q => ?_)
    (fun data mem => ⟨data, mem, rfl⟩) (fun q => ?_) fun entry mem => .inl mem
  · simp only [Cluster.enter]
    split
    next same => exact same ▸ Nat.le_refl _
    next => exact Nat.le_refl _
  · simp only [Cluster.enter]
    split
    · exact .inr sound
    · exact .inl rfl

theorem Inv.broker (inv : Inv job s) {broker : TxnBroker} (later : s.broker.Later broker)
    (own : ∀ id part offset marker, Marked job broker id part offset marker →
      Marked job s.broker id part offset marker) : Inv job { s with broker } :=
  inv.frame later own (fun _ => Nat.le_refl _) (fun data mem => ⟨data, mem, rfl⟩)
    (fun _ => .inl rfl)
    fun _ mem => .inl mem

theorem Inv.updateStatus (inv : Inv job s) {store : Storage π ν} {status : Status}
    (updated : s.store.updateStatus id status = some store) : Inv job { s with store } :=
  inv.frame (.refl _) (fun _ _ _ _ marked => marked) (fun _ => Nat.le_refl _)
    (fun _ mem => Storage.mem_updateStatus updated mem) (fun _ => .inl rfl) fun _ mem => .inl mem

variable {p : Nat}

theorem Inv.boundary (inv : Inv job s) (stable : ProbesStable job s (.boundary p part))
    (moves : s.boundary job p part = some t) : Inv job t := by
  have promise := inv.phases p
  simp only [Cluster.boundary] at moves
  split at moves
  next latest boundaries positions phase =>
    obtain ⟨-, rfl⟩ := of_ite_some moves
    rw [phase] at promise
    obtain ⟨home, offset, marker, inside, marked, bounded, passed⟩ := promise
    refine inv.enter p _ ⟨home, offset, marker, inside, marked, fun boundary read => ?_, passed⟩
    dsimp only at read
    split at read
    next here =>
      subst here
      cases read
      -- a marker at or behind the boundary is what the condition excludes
      by_contra behind
      refine stable latest.id (by rw [phase]; rfl) marker ?_ ⟨marked.key, marked.value⟩
      refine mem_iff_getElem?.2 ⟨offset - s.broker.lastStable home, ?_⟩
      rw [List.getElem?_drop, Nat.add_sub_cancel' (Nat.le_of_not_lt behind)]
      exact marked.there
    next => exact bounded boundary read
  next => cases moves

theorem Inv.fetch (inv : Inv job s) {next : Nat}
    (moves : s.fetch job p part next = some t) : Inv job t := by
  have promise := inv.phases p
  simp only [Cluster.fetch] at moves
  split at moves
  next latest boundaries positions phase =>
    obtain ⟨⟨-, -, -, -, reached⟩, moves⟩ := ite_none_right_eq_some.1 moves
    split at moves
    · cases moves
      exact inv.enter p _ trivial
    next missing =>
      cases moves
      rw [phase] at promise
      obtain ⟨home, offset, marker, inside, marked, bounded, passed⟩ := promise
      refine inv.enter p _ ⟨home, offset, marker, inside, marked, bounded, fun behind => ?_⟩
      dsimp only at behind
      split at behind
      next here =>
        subst here
        rcases Nat.lt_or_ge offset (positions home) with before | after
        · exact passed before
        · -- the marker is in the range that was read, decided and not committed
          have decided := TxnBroker.decided_of_lt_lastStable marked.there
            (Nat.lt_of_lt_of_le behind reached)
          have uncommitted : s.broker.status marker.txn ≠ .committed := by
            intro committed
            refine missing (List.any_eq_true.2 ⟨marker, ?_, ?_⟩)
            · exact TxnBroker.mem_readCommitted marked.there committed after behind
            · simp [marked.key, marked.value]
          cases status : s.broker.status marker.txn with
          | ongoing => exact absurd status decided
          | committed => exact absurd status uncommitted
          | aborted => rfl
      next => exact passed behind
  next => cases moves

theorem Inv.fallBack (inv : Inv job s) (moves : s.fallBack job p = some t) : Inv job t := by
  have promise := inv.phases p
  simp only [Cluster.fallBack] at moves
  split at moves
  next latest boundaries positions phase =>
    obtain ⟨done, rfl⟩ := of_ite_some moves
    rw [phase] at promise
    obtain ⟨home, offset, marker, inside, marked, bounded, passed⟩ := promise
    have reached : ∃ boundary, boundaries home = some boundary ∧ boundary ≤ positions home := by
      have here := List.all_eq_true.1 done home (List.mem_range.2 inside)
      obtain ⟨boundary, read, behind⟩ := (Option.any_eq_true _ _).1 here
      exact ⟨boundary, read, of_decide_eq_true behind⟩
    obtain ⟨boundary, read, behind⟩ := reached
    have aborted := passed (Nat.lt_of_lt_of_le (bounded boundary read) behind)
    have entered := inv.enter p (.recovered s.store.loadLatestCompleted) trivial
    refine entered.frame (.refl _) (fun _ _ _ _ marked => marked) (fun _ => Nat.le_refl _)
      (fun data mem => ⟨data, mem, rfl⟩) (fun _ => .inl rfl) fun entry mem => ?_
    rcases mem_append.1 mem with before | now
    · exact .inl before
    · rw [mem_singleton.1 now]
      exact .inr ⟨home, offset, marker, marked, aborted⟩
  next => cases moves

theorem marked_mark {here offset : Nat} {written marker : MarkerRecord}
    (marked : Marked job (b.mark part written) id here offset marker) :
    Marked job b id here offset marker ∨ marker = written := by
  obtain ⟨there, key, value⟩ := marked
  simp only [TxnBroker.mark] at there
  split at there
  next same =>
    subst same
    rw [List.getElem?_append] at there
    split at there
    · exact .inl ⟨there, key, value⟩
    · exact .inr (mem_singleton.1 (mem_of_getElem? there))
  next => exact .inl ⟨there, key, value⟩

theorem Inv.mark (inv : Inv job s) {kind : BarrierKind}
    (moves : s.mark job p part kind = some t) : Inv job t := by
  simp only [Cluster.mark] at moves
  split at moves
  next epoch txn phase =>
    obtain ⟨⟨-, inside⟩, same⟩ := ite_none_right_eq_some.1 moves
    cases same
    have later := s.broker.later_mark part ⟨txn, job.txnID, ⟨p, (s.procs p).next, kind⟩⟩
    have new : Marked job (s.broker.mark part ⟨txn, job.txnID, ⟨p, (s.procs p).next, kind⟩⟩)
        ⟨p, (s.procs p).next, kind⟩ part (s.broker.markers part).length
        ⟨txn, job.txnID, ⟨p, (s.procs p).next, kind⟩⟩ := by
      refine ⟨?_, rfl, rfl⟩
      simp [TxnBroker.mark]
    -- no older marker has the number of the new one
    have apart : ∀ id here offset marker, Marked job s.broker id here offset marker →
        id ≠ ⟨p, (s.procs p).next, kind⟩ := by
      rintro id here offset marker marked rfl
      exact Nat.lt_irrefl _ (inv.fresh _ here offset marker marked)
    refine ⟨?_, ?_, ?_, ?_, ?_⟩
    · intro id here offset marker marked
      rcases marked_mark marked with old | rfl
      · have below := inv.fresh id here offset marker old
        dsimp only
        split
        next same =>
          rw [same] at below
          exact Nat.lt_succ_of_lt below
        next => exact below
      · obtain rfl := marked.value
        dsimp only
        rw [if_pos rfl]
        exact Nat.lt_succ_self _
    · intro id here offset marker here' offset' marker' first second
      rcases marked_mark first with old | rfl
      · rcases marked_mark second with old' | rfl
        · exact inv.unique id here offset marker here' offset' marker' old old'
        · exact absurd second.value.symm (apart id here offset marker old)
      · rcases marked_mark second with old' | rfl
        · exact absurd first.value.symm (apart id here' offset' marker' old')
        · rfl
    · intro data mem
      obtain ⟨here, offset, marker, bound, marked⟩ := inv.stored data mem
      exact ⟨here, offset, marker, bound, marked.later later⟩
    · intro q
      dsimp only
      split
      · exact ⟨part, _, _, inside, new⟩
      · exact sound_later later (inv.phases q)
    · intro entry mem
      obtain ⟨here, offset, marker, marked, aborted⟩ := inv.discarded entry mem
      exact ⟨here, offset, marker, marked.later later, aborted_later later aborted⟩
  next => cases moves

theorem Inv.save (inv : Inv job s) {source : Option π} {operators : Option ν}
    (moves : s.save p source operators = some t) : Inv job t := by
  have promise := inv.phases p
  simp only [Cluster.save] at moves
  split at moves
  next epoch txn id phase =>
    cases moves
    rw [phase] at promise
    have entered := inv.enter p (.stored epoch txn id) trivial
    refine { entered with stored := fun data mem => ?_ }
    rcases Storage.mem_save.1 mem with ⟨old, -⟩ | rfl
    · exact inv.stored data old
    · exact promise
  next => cases moves

theorem Inv.transact (inv : Inv job s) {broker : TxnBroker} (later : s.broker.Later broker)
    (same : broker.markers = s.broker.markers) : Inv job { s with broker } :=
  inv.broker later fun _ _ _ _ marked => ⟨same ▸ marked.there, marked.key, marked.value⟩

theorem Inv.step (inv : Inv job s) {action : ClusterAction π ν} (stable : ProbesStable job s action)
    (moves : s.step job action = some t) : Inv job t := by
  cases action with
  | start p =>
    simp only [Cluster.step, Cluster.start] at moves
    split at moves
    · split at moves
      · cases moves
        exact inv.enter p _ trivial
      next latest loaded =>
        split at moves
        · cases moves
          exact inv.enter p _ trivial
        · cases moves
          obtain ⟨part, offset, marker, inside, marked⟩ :=
            inv.stored latest (Storage.mem_of_load loaded)
          exact inv.enter p _ ⟨part, offset, marker, inside, marked, nofun, fun below =>
            absurd below (Nat.not_lt_zero _)⟩
    · cases moves
  | boundary p part => exact inv.boundary stable moves
  | fetch p part next => exact inv.fetch moves
  | fallBack p => exact inv.fallBack moves
  | promote p =>
    simp only [Cluster.step, Cluster.promote] at moves
    split at moves
    next latest phase =>
      obtain ⟨store, updated, rfl⟩ := map_eq_some_iff.1 moves
      have entered := inv.enter p (.recovered (some { latest with status := .completed })) trivial
      exact entered.updateStatus updated
    next => cases moves
  | fail p =>
    cases moves
    exact inv.enter p _ trivial
  | initProducer p =>
    simp only [Cluster.step, Cluster.initProducer] at moves
    split at moves
    · cases moves
      exact (inv.enter p (.running (s.broker.epochs job.txnID + 1) none) trivial).transact
        (s.broker.later_initProducer job.txnID) rfl
    · cases moves
  | beginTransaction p =>
    simp only [Cluster.step, Cluster.beginTransaction] at moves
    split at moves
    next epoch phase =>
      obtain ⟨-, rfl⟩ := of_ite_some moves
      exact (inv.enter p (.running epoch (some s.broker.txns.length)) trivial).transact
        (s.broker.later_beginTransaction job.txnID epoch) rfl
    next => cases moves
  | produce p message =>
    simp only [Cluster.step, Cluster.produce] at moves
    split at moves
    · obtain ⟨-, rfl⟩ := of_ite_some moves
      exact inv.transact (s.broker.later_produce _ message) rfl
    · cases moves
  | mark p part kind => exact inv.mark moves
  | save p source operators => exact inv.save moves
  | commit p =>
    simp only [Cluster.step, Cluster.commit] at moves
    split at moves
    next epoch txn id phase =>
      cases moves
      exact (inv.enter p (.committing epoch txn id) trivial).transact
        ⟨fun _ _ => rfl, fun _ => prefix_rfl⟩ rfl
    next => cases moves
  | acknowledge p =>
    simp only [Cluster.step, Cluster.acknowledge] at moves
    split at moves
    · obtain ⟨-, rfl⟩ := of_ite_some moves
      exact inv.enter p _ trivial
    · cases moves
  | complete p =>
    simp only [Cluster.step, Cluster.complete] at moves
    split at moves
    next epoch id phase =>
      obtain ⟨store, updated, rfl⟩ := map_eq_some_iff.1 moves
      exact (inv.enter p (.running epoch none) trivial).updateStatus updated
    next => cases moves
  | abort p =>
    have drops : ∀ epoch txn, (if s.broker.live txn epoch then
        some { s.enter p (.running epoch none) with broker := s.broker.decideTxn txn .aborted }
        else none) = some t → Inv job t := by
      intro epoch txn moves
      obtain ⟨-, rfl⟩ := of_ite_some moves
      exact (inv.enter p (.running epoch none) trivial).transact
        (s.broker.later_decideTxn txn .aborted) rfl
    simp only [Cluster.step, Cluster.abort] at moves
    split at moves
    · exact drops _ _ moves
    · exact drops _ _ moves
    · exact drops _ _ moves
    · exact drops _ _ moves
    · cases moves
  | deliver request =>
    obtain ⟨-, rfl⟩ := of_ite_some moves
    refine inv.transact (s.broker.later_deliver request) ?_
    simp only [TxnBroker.deliver]
    split <;> rfl
  | expire txn =>
    cases moves
    exact inv.transact (s.broker.later_decideTxn txn .aborted) rfl
  | foreignInit owner =>
    obtain ⟨-, rfl⟩ := of_ite_some moves
    exact inv.transact (s.broker.later_initProducer owner) rfl
  | foreignBegin owner =>
    obtain ⟨-, rfl⟩ := of_ite_some moves
    exact inv.transact (s.broker.later_beginTransaction owner _) rfl
  | foreignMark txn part value =>
    simp only [Cluster.step] at moves
    split at moves
    next foreign found =>
      obtain ⟨stranger, rfl⟩ := of_ite_some moves
      refine inv.broker (s.broker.later_mark part _) fun id here offset marker marked => ?_
      rcases marked_mark marked with old | rfl
      · exact old
      · exact absurd marked.key stranger
    next => cases moves
  | foreignEnd txn committed =>
    obtain ⟨-, rfl⟩ := of_ite_some moves
    exact inv.transact (s.broker.later_decideTxn txn _) rfl

/-- A committed transaction holds a marker of the checkpoint. -/
def Visible (job : TxnJob) (s : Cluster π ν) (id : CheckpointID) : Prop :=
  ∃ part, ∃ marker ∈ s.broker.markers part, marker.key = job.txnID ∧ marker.value = id ∧
    s.broker.status marker.txn = .committed

/-- In every history of crashes and restarts in which probes are stable, the output of a
checkpoint that recovery has discarded is not visible, then or later. -/
theorem fall_back_final (job : TxnJob) (s : Cluster π ν)
    (reach : Reach (step job) (ProbesStable job) {} s) :
    ∀ entry ∈ s.discarded, ¬s.Visible job entry.1 := by
  have inv : Inv job s := by
    refine reach.invariant ?_ fun s action t inv stable moves => inv.step stable moves
    refine ⟨?_, ?_, by simp, fun _ => trivial, by simp⟩
    · intro id part offset marker marked
      cases marked.there
    · intro id part offset marker part' offset' marker' marked
      cases marked.there
  rintro entry mem ⟨part, marker, there, key, value, committed⟩
  obtain ⟨offset, here⟩ := mem_iff_getElem?.1 there
  obtain ⟨home, place, other, marked, aborted⟩ := inv.discarded entry mem
  have same : other = marker :=
    inv.unique entry.1 home place other part offset marker marked ⟨here, key, value⟩
  rw [same, committed] at aborted
  cases aborted

section Examples

def oneMarkerPartition : TxnJob := ⟨"orders-job", 1⟩

def order (number : UInt8) : TxnMessage := ⟨[], [number], 0, []⟩

def untilCommit : List (ClusterAction Unit Unit) :=
  [.start 0, .initProducer 0, .beginTransaction 0, .produce 0 (order 1), .mark 0 0 .periodic,
    .save 0 none none, .commit 0, .deliver ⟨0, 1⟩, .acknowledge 0, .complete 0, .beginTransaction 0,
    .produce 0 (order 2), .mark 0 0 .periodic, .save 0 none none, .commit 0]

/-- The broker aborts the transaction of the crashed process before the next one starts. -/
theorem fall_back_final_expired : ∃ s : Cluster Unit Unit,
    Reach (step oneMarkerPartition) (ProbesStable oneMarkerPartition) {} s ∧
      ⟨0, 1, .periodic⟩ ∈ s.discarded.map Prod.fst ∧
      ∀ entry ∈ s.discarded, ¬s.Visible oneMarkerPartition entry.1 := by
  obtain ⟨s, reach, held⟩ := Reach.exists_of_guarded (step oneMarkerPartition)
    (ProbesStable oneMarkerPartition) ({} : Cluster Unit Unit)
    (untilCommit ++ [.expire 1, .start 1, .boundary 1 0, .fetch 1 0 2, .fallBack 1])
    (fun s => decide (⟨0, 1, .periodic⟩ ∈ s.discarded.map Prod.fst)) (by decide)
  exact ⟨s, reach, of_decide_eq_true held, fall_back_final oneMarkerPartition s reach⟩

/-- The commit request of a crashed process arrives after the next one has fallen back to the
checkpoint before it, and before that one initialises its producer. -/
theorem discarded_visible : ∃ s : Cluster Unit Unit, Reach (step oneMarkerPartition) Always {} s ∧
      ∃ entry ∈ s.discarded, entry.1 = ⟨0, 1, .periodic⟩ ∧
        entry.2.map CheckpointData.id = some ⟨0, 0, .periodic⟩ ∧
          s.Visible oneMarkerPartition entry.1 ∧
        ∃ txn ∈ s.broker.txns, order 2 ∈ txn.messages ∧ txn.status = .committed := by
  obtain ⟨s, reach, held⟩ := Reach.exists_of_run (step oneMarkerPartition) ({} : Cluster Unit Unit)
    (untilCommit ++ [.start 1, .boundary 1 0, .fetch 1 0 1, .fallBack 1, .deliver ⟨1, 1⟩])
    (fun s => decide (∃ entry ∈ s.discarded, entry.1 = ⟨0, 1, .periodic⟩ ∧
      entry.2.map CheckpointData.id = some ⟨0, 0, .periodic⟩ ∧
      (∃ marker ∈ s.broker.markers 0, marker.key = oneMarkerPartition.txnID ∧
        marker.value = entry.1 ∧ s.broker.status marker.txn = .committed) ∧
      ∃ txn ∈ s.broker.txns, order 2 ∈ txn.messages ∧ txn.status = .committed)) (by decide)
  obtain ⟨entry, mem, id, restored, visible, output⟩ := of_decide_eq_true held
  exact ⟨s, reach, entry, mem, id, restored, ⟨0, visible⟩, output⟩

end Examples

end Cluster

end Weibo.Engine
