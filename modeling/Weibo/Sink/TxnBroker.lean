import Weibo.Sink.TxnKafkaSink

/-!
# The broker's side of transactions

A transaction belongs to a transactional id and an epoch of it; initialising a producer raises the
epoch and aborts the open transaction. A commit request arrives at any later time. The last stable
offset of a marker partition is the first record of an open transaction.
-/

namespace Weibo.Sink

open List

inductive TxnStatus where
  | ongoing
  | committed
  | aborted
  deriving DecidableEq

structure Transaction where
  owner : String
  epoch : Nat
  messages : List TxnMessage := []
  status : TxnStatus := .ongoing
  deriving DecidableEq

structure MarkerRecord where
  txn : Nat
  key : String
  value : CheckpointID
  deriving DecidableEq

structure CommitRequest where
  txn : Nat
  epoch : Nat
  deriving DecidableEq

structure TxnBroker where
  epochs : String → Nat := fun _ => 0
  txns : List Transaction := []
  markers : Nat → List MarkerRecord := fun _ => []
  requests : List CommitRequest := []

namespace TxnBroker

def status (b : TxnBroker) (k : Nat) : TxnStatus :=
  (b.txns[k]?.map Transaction.status).getD .ongoing

def live (b : TxnBroker) (k : Nat) (epoch : Nat) : Bool :=
  match b.txns[k]? with
  | some txn => decide (txn.status = .ongoing ∧ txn.epoch = epoch ∧ b.epochs txn.owner = epoch)
  | none => false

def initProducer (b : TxnBroker) (owner : String) : TxnBroker :=
  { b with
    epochs := fun other => if other = owner then b.epochs owner + 1 else b.epochs other
    txns := b.txns.map fun txn =>
      if txn.owner = owner ∧ txn.status = .ongoing then { txn with status := .aborted } else txn }

def beginTransaction (b : TxnBroker) (owner : String) (epoch : Nat) : TxnBroker :=
  { b with txns := b.txns ++ [{ owner, epoch }] }

def modify (b : TxnBroker) (k : Nat) (change : Transaction → Transaction) : TxnBroker :=
  { b with txns := b.txns.modify k change }

def produce (b : TxnBroker) (k : Nat) (message : TxnMessage) : TxnBroker :=
  b.modify k fun txn => { txn with messages := txn.messages ++ [message] }

def mark (b : TxnBroker) (part : Nat) (marker : MarkerRecord) : TxnBroker :=
  { b with
    markers := fun other => if other = part then b.markers part ++ [marker] else b.markers other }

def decideTxn (b : TxnBroker) (k : Nat) (status : TxnStatus) : TxnBroker :=
  b.modify k fun txn => if txn.status = .ongoing then { txn with status } else txn

def deliver (b : TxnBroker) (request : CommitRequest) : TxnBroker :=
  let received := { b with requests := b.requests.erase request }
  if b.live request.txn request.epoch then received.decideTxn request.txn .committed else received

def lastStable (b : TxnBroker) (part : Nat) : Nat :=
  (b.markers part).findIdx fun marker => decide (b.status marker.txn = .ongoing)

/-- The records that a consumer with `read_committed` isolation reads in a range of offsets. -/
def readCommitted (b : TxnBroker) (part start stop : Nat) : List MarkerRecord :=
  (((b.markers part).take stop).drop start).filter fun marker =>
    decide (b.status marker.txn = .committed)

/-! ## What never changes -/

structure Later (b c : TxnBroker) : Prop where
  decided : ∀ k, b.status k ≠ .ongoing → c.status k = b.status k
  markers : ∀ part, b.markers part <+: c.markers part

variable {b c : TxnBroker}

theorem Later.refl (b : TxnBroker) : Later b b := ⟨fun _ _ => rfl, fun _ => prefix_rfl⟩

variable {part offset : Nat} {marker : MarkerRecord}

theorem Later.getElem? (later : Later b c) (there : (b.markers part)[offset]? = some marker) :
    (c.markers part)[offset]? = some marker := by
  obtain ⟨added, same⟩ := later.markers part
  rw [← same, List.getElem?_append_left (List.getElem?_eq_some_iff.1 there).1]
  exact there

theorem later_modify (b : TxnBroker) (k : Nat) {change : Transaction → Transaction}
    (keeps : ∀ txn, txn.status ≠ .ongoing → (change txn).status = txn.status) :
    Later b (b.modify k change) := by
  refine ⟨fun j decided => ?_, fun _ => prefix_rfl⟩
  simp only [status, modify, getElem?_modify] at decided ⊢
  cases found : b.txns[j]? with
  | none => simp
  | some txn =>
    rw [found] at decided
    by_cases same : k = j
    · simpa [same] using keeps txn decided
    · simp [same]

theorem later_initProducer (b : TxnBroker) (owner : String) : Later b (b.initProducer owner) := by
  refine ⟨fun k decided => ?_, fun _ => prefix_rfl⟩
  simp only [status, initProducer, getElem?_map] at decided ⊢
  cases found : b.txns[k]? with
  | none => simp
  | some txn =>
    rw [found] at decided
    have ended : txn.status ≠ .ongoing := decided
    simp [ended]

theorem later_beginTransaction (b : TxnBroker) (owner : String) (epoch : Nat) :
    Later b (b.beginTransaction owner epoch) := by
  refine ⟨fun k decided => ?_, fun _ => prefix_rfl⟩
  simp only [status, beginTransaction] at decided ⊢
  cases found : b.txns[k]? with
  | none => simp [found] at decided
  | some txn => rw [List.getElem?_append_left (List.getElem?_eq_some_iff.1 found).1, found]

theorem later_produce (b : TxnBroker) (k : Nat) (message : TxnMessage) :
    Later b (b.produce k message) :=
  later_modify b k fun _ _ => rfl

theorem later_mark (b : TxnBroker) (part : Nat) (marker : MarkerRecord) :
    Later b (b.mark part marker) := by
  refine ⟨fun _ _ => rfl, fun other => ?_⟩
  simp only [mark]
  split
  next same => exact same ▸ prefix_append _ _
  next => exact prefix_rfl

theorem later_decideTxn (b : TxnBroker) (k : Nat) (status : TxnStatus) :
    Later b (b.decideTxn k status) :=
  later_modify b k fun txn decided => by simp [decided]

theorem later_deliver (b : TxnBroker) (request : CommitRequest) : Later b (b.deliver request) := by
  simp only [deliver]
  split
  · have changes := later_decideTxn { b with requests := b.requests.erase request } request.txn
      .committed
    exact ⟨changes.decided, changes.markers⟩
  · exact ⟨fun _ _ => rfl, fun _ => prefix_rfl⟩

theorem decided_of_lt_lastStable (there : (b.markers part)[offset]? = some marker)
    (below : offset < b.lastStable part) : b.status marker.txn ≠ .ongoing := by
  obtain ⟨inside, rfl⟩ := List.getElem?_eq_some_iff.1 there
  have clear := not_of_lt_findIdx below
  simpa using clear

theorem mem_readCommitted {start stop : Nat} (there : (b.markers part)[offset]? = some marker)
    (committed : b.status marker.txn = .committed) (after : start ≤ offset)
    (before : offset < stop) : marker ∈ b.readCommitted part start stop := by
  refine mem_filter.2 ⟨mem_iff_getElem?.2 ⟨offset - start, ?_⟩, by simpa using committed⟩
  rw [getElem?_drop, getElem?_take, if_pos (by omega)]
  rw [show start + (offset - start) = offset by omega]
  exact there

end TxnBroker

end Weibo.Sink
