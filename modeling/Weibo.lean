import Weibo.Checkpoint.Blobstore
import Weibo.Checkpoint.Confinement
import Weibo.Checkpoint.CoordinatorRuns
import Weibo.Checkpoint.StorageRefinement
import Weibo.Control.Backoff
import Weibo.Control.RunHistory
import Weibo.Engine.ExactlyOnce
import Weibo.Engine.Fencing
import Weibo.Engine.FiniteInput
import Weibo.Engine.GroupConsumer
import Weibo.Engine.KeyedRestore
import Weibo.Engine.NativeJoin
import Weibo.Engine.StopWithSavepoint
import Weibo.Operator.Clocks
import Weibo.Operator.JoinWatermarks
import Weibo.Operator.TimerRuns
import Weibo.Operator.WindowKeys
import Weibo.Operator.WindowReduce
import Weibo.Pipeline.KeyedParallelism
import Weibo.Pipeline.SinkStage
import Weibo.Sink.BatchRuns
import Weibo.Sink.MarkerProbe
import Weibo.Sink.PostgresUpsert
import Weibo.Source.PartitionManager
import Weibo.Source.PartitionWatermarks
import Weibo.Source.PositionCodec
import Weibo.State.PebbleRuns
import Weibo.Workflow.Payloads
import Weibo.Workflow.TransactionalSink
