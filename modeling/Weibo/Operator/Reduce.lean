import Weibo.Operator.Window

/-!
# The reduce operator

`ReduceOperator` keeps one accumulator per key, or per key and window when the records carry window
headers, and emits it for every record. Those of closed windows are evicted when the frontier moves.
-/

namespace Weibo

def slash : UInt8 := 47

def stateKey (r : Record) : Bytes :=
  match r.header "window_start" with
  | some ws => r.key ++ slash :: ws ++ slash :: (r.header "window_end").getD []
  | none => r.key

/-- The parts of a text before and after its last `/`. -/
def splitLastSlash (text : Bytes) : Option (Bytes × Bytes) :=
  match text.reverse.span (· != slash) with
  | (after, _ :: before) => some (before.reverse, after.reverse)
  | (_, []) => none

def stateKeyWindowEnd [TimeText] (sk : Bytes) : Option Time := do
  let (front, last) ← splitLastSlash sk
  let (_, first) ← splitLastSlash front
  let _ ← TimeText.parse first
  TimeText.parse last

/-- `strconv.ParseInt(text, 10, 64)` of a positive number, else `none`. -/
def parsePositive (text : Bytes) : Option Int :=
  let digits := match text with
    | 43 :: rest => rest
    | _ => text
  if digits.isEmpty ∨ ¬digits.all fun b => decide (48 ≤ b ∧ b ≤ 57) then none
  else
    let n : Nat := digits.foldl (fun n b => 10 * n + (b - 48).toNat) 0
    if 0 < n ∧ n < 2 ^ 63 then some n else none

def windowAllowedLateness (r : Record) : Duration :=
  ((r.header "window_allowed_lateness_nanos").bind parsePositive).getD 0

structure ReduceOperator where
  fn : ReduceFn
  values : ValueState Bytes Bytes := ∅
  windowFrontier : Time := Time.zero

namespace ReduceOperator

def evictClosedWindows [TimeText] (op : ReduceOperator) : ReduceOperator :=
  let stale := op.values.keys.filter fun sk =>
    (stateKeyWindowEnd sk).any fun stop => decide (stop < op.windowFrontier)
  { op with values := stale.foldl (fun values sk => values.erase sk) op.values }

def advanceWindowFrontier [TimeText] (op : ReduceOperator) (r : Record) : ReduceOperator :=
  match (r.header "window_end").bind TimeText.parse with
  | none => op
  | some stop =>
    let allowed := windowAllowedLateness r
    let frontier := if allowed > 0 then stop - allowed + 1 else stop - allowed
    if frontier > op.windowFrontier then
      { op with windowFrontier := frontier }.evictClosedWindows
    else op

/-- One round of the loop of `Process`. -/
def process [TimeText] (op : ReduceOperator) (record : Record) : Reaction ReduceOperator Record :=
  if record.isWatermark then .send [record] op
  else if record.isBarrier then .send [record] op
  else
    let sk := stateKey record
    match op.fn (op.values.lookup sk) record with
    | none => .fail
    | some newAccum =>
      let value := newAccum.getD []
      let result : Record :=
        { key := record.key
          value := value
          timestamp := record.timestamp
          offset := record.offset
          headers := record.headers }
      .send [result]
        ({ op with values := op.values.insert sk value }.advanceWindowFrontier record)

variable [TimeText]

theorem advanceWindowFrontier_fn (op : ReduceOperator) (r : Record) :
    (op.advanceWindowFrontier r).fn = op.fn := by
  simp only [advanceWindowFrontier]
  split
  · rfl
  · split <;> split <;> rfl

theorem process_data {op : ReduceOperator} (total : ∀ accum r, (op.fn accum r).isSome = true)
    {record : Record} (data : record.isMarker = false) :
    (op.process record).Meets (fun r => r.isMarker = false) fun after => after.fn = op.fn := by
  simp only [Record.isMarker, Bool.or_eq_false_iff] at data
  obtain ⟨accum, reduced⟩ := Option.isSome_iff_exists.1
    (total (op.values.lookup (stateKey record)) record)
  simp only [process, data.1, data.2, Bool.false_eq_true, if_false, reduced]
  refine Reaction.meets_send (fun r mem => ?_) (advanceWindowFrontier_fn _ _)
  obtain rfl := List.mem_singleton.1 mem
  rfl

theorem process_marker (op : ReduceOperator) {record : Record} (marker : record.isMarker = true) :
    op.process record = .send [record] op := by
  simp only [Record.isMarker, Bool.or_eq_true] at marker
  simp only [process]
  rcases marker with barrier | watermark
  · simp [barrier]
  · simp [watermark]

end ReduceOperator

end Weibo
