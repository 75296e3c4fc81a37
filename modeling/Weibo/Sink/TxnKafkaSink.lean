import Weibo.Types.Record

/-!
# The transactional Kafka sink

`Write` produces the records into the open transaction. At a barrier it adds a marker record,
flushes, tells the coordinator, and waits until `Commit` or `Abort` has opened the next transaction.
-/

namespace Weibo.Sink

structure TxnMessage where
  key : Bytes
  value : Bytes
  timestamp : Time
  headers : List (String × Bytes)
  deriving DecidableEq

structure TxnKafkaConfig where
  serializer : Option (Record → Option Bytes) := none

def TxnKafkaConfig.message (cfg : TxnKafkaConfig) (r : Record) : Option TxnMessage :=
  match cfg.serializer with
  | none => some ⟨r.key, r.value, r.timestamp, r.headers⟩
  | some serialize => (serialize r).map fun value => ⟨r.key, value, r.timestamp, r.headers⟩

def TxnKafkaConfig.accepting (serialize : Option (Record → Bytes)) : TxnKafkaConfig :=
  ⟨serialize.map fun encode r => some (encode r)⟩

theorem TxnKafkaConfig.message_accepting (serialize : Option (Record → Bytes)) (r : Record) :
    ((TxnKafkaConfig.accepting serialize).message r).isSome = true := by
  cases serialize <;> rfl

/-- Where the `Write` goroutine is. -/
inductive WriteLoop where
  | reading
  | notifying (id : CheckpointID) (failed : Bool)
  | sending (id : CheckpointID)
  | waiting (id : CheckpointID)
  | returned
  deriving DecidableEq

/-- What consumers with `read_committed` isolation see of the sink's topics. -/
structure Topic where
  visible : List TxnMessage := []
  markers : List CheckpointID := []

structure TxnKafkaSink where
  loop : WriteLoop := .reading
  waiters : List CheckpointID := []
  produceErr : Bool := false
  staged : List TxnMessage := []
  stagedMarkers : List CheckpointID := []

namespace TxnKafkaSink

/-- A data record is produced; the message is missing if it could not be serialized, and
`sent` says whether the produce call succeeds. -/
def produce (s : TxnKafkaSink) (message : Option TxnMessage) (sent : Bool) : TxnKafkaSink :=
  match message, sent with
  | some message, true => { s with staged := s.staged ++ [message] }
  | _, _ => { s with produceErr := true }

def prepare (s : TxnKafkaSink) (id : CheckpointID) (flushed : Bool) : TxnKafkaSink :=
  { s with
    loop := .notifying id (!flushed || s.produceErr)
    waiters := id :: s.waiters
    stagedMarkers := if flushed then s.stagedMarkers ++ [id] else s.stagedMarkers }

/-- `signal`: unblock `Write`. -/
def signal (s : TxnKafkaSink) (id : CheckpointID) : TxnKafkaSink :=
  { s with waiters := s.waiters.filter (· ≠ id) }

def beginTransaction (s : TxnKafkaSink) : TxnKafkaSink :=
  { s with produceErr := false, staged := [], stagedMarkers := [] }

/-- `Write` returns; its deferred function aborts the open transaction. -/
def finish (s : TxnKafkaSink) : TxnKafkaSink :=
  { s with loop := .returned, staged := [], stagedMarkers := [] }

def publish (s : TxnKafkaSink) (topic : Topic) : Topic where
  visible := topic.visible ++ s.staged
  markers := topic.markers ++ s.stagedMarkers

end TxnKafkaSink

end Weibo.Sink
