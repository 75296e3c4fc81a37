import Mathlib.Order.MinMax
import Weibo.Source.Position

/-!
# The clock of a watermark source

`WatermarkSource` derives watermarks from the timestamps it forwards, with one
`BoundedOutOfOrderness` generator or one per partition, where the least watermark of those not idle
counts. Idleness depends on the wall clock, so a tick takes the set of idle partitions.
-/

namespace Weibo.Source

structure BoundedOutOfOrderness where
  allowedLateness : Duration
  maxTimestamp : Time := Time.zero
  deriving DecidableEq

namespace BoundedOutOfOrderness

def onRecord (g : BoundedOutOfOrderness) (timestamp : Time) : BoundedOutOfOrderness :=
  if timestamp > g.maxTimestamp then { g with maxTimestamp := timestamp } else g

def getWatermark (g : BoundedOutOfOrderness) : Time :=
  if g.maxTimestamp.isZero then Time.zero else g.maxTimestamp - g.allowedLateness

end BoundedOutOfOrderness

/-- The variables of `WatermarkSource.Run` that watermarks depend on. -/
structure WatermarkSource where
  generator : BoundedOutOfOrderness
  perPartition : Bool := false
  parts : AList fun _ : PositionKey => BoundedOutOfOrderness := ∅
  lastWM : Time := Time.zero

namespace WatermarkSource

def partitionKey (r : Record) : PositionKey := ⟨r.source, r.partition⟩

def onRecord (ws : WatermarkSource) (r : Record) : WatermarkSource :=
  if ws.perPartition then
    let g := (ws.parts.lookup (partitionKey r)).getD ⟨ws.generator.allowedLateness, Time.zero⟩
    { ws with parts := ws.parts.insert (partitionKey r) (g.onRecord r.timestamp) }
  else { ws with generator := ws.generator.onRecord r.timestamp }

/-- One partition in the loop of `partitionWatermark`. -/
def lower (idle : PositionKey → Bool) (least : Time)
    (part : Sigma fun _ : PositionKey => BoundedOutOfOrderness) : Time :=
  let wm := part.2.getWatermark
  if wm.isZero then least
  else if idle part.1 then least
  else if least.isZero ∨ wm < least then wm
  else least

/-- `partitionWatermark` with the given idle partitions. -/
def partitionWatermark (ws : WatermarkSource) (idle : PositionKey → Bool) : Time :=
  ws.parts.entries.foldl (lower idle) Time.zero

def tick (ws : WatermarkSource) (idle : PositionKey → Bool) : WatermarkSource × Time :=
  if ws.perPartition then
    let lastWM := max ws.lastWM (ws.partitionWatermark idle)
    ({ ws with lastWM }, lastWM)
  else (ws, ws.generator.getWatermark)

/-- `maxWatermark`: the start of the year 9999. -/
def maxWatermark : Record := Record.newWatermark 253370764800000000000

end WatermarkSource

end Weibo.Source
