import Weibo.Lib.Transition
import Weibo.Operator.JoinRuns
import Weibo.Operator.OperatorSnapshots
import Weibo.Operator.WindowRuns
import Weibo.Source.WatermarkSource

/-!
# Watermarks across a recovery

Event-time operators write their watermark through to a cell of the backend, as Unix nanoseconds,
and start with what they find there after a recovery. The zero time stands for "no watermark yet"
and the maximum watermark does not fit 64 bits; how they are stored differs.
-/

namespace Weibo

open List Option

open Transition (Reach Always)

structure WatermarkCells where
  watermark : Option Int := none
  rightWatermark : Option Int := none
  deriving DecidableEq

/-! ## The cells of the operators -/

namespace WindowOperator

def loadWatermark (cell : Option Int) : Time := cell.getD Time.zero

def storeWatermark (watermark : Time) : Option Int := some watermark.unixNano

def writes (op : WindowOperator) (cells : WatermarkCells) (r : Record) : WatermarkCells :=
  if r.isWatermark ∧ r.timestamp > op.currentWatermark then
    { cells with watermark := storeWatermark r.timestamp }
  else cells

end WindowOperator

namespace KeyedProcessOperator

/-- `loadWatermark`: an empty cell leaves the watermark as it is. -/
def loadWatermark (op : KeyedProcessOperator) (cell : Option Int) : KeyedProcessOperator :=
  { op with watermark := cell.getD op.watermark }

def storeWatermark (watermark : Time) : Option Int := some watermark.unixNano

def writes (op : KeyedProcessOperator) (cells : WatermarkCells) (r : Record) : WatermarkCells :=
  if ¬r.isBarrier ∧ r.isWatermark ∧ r.timestamp > op.watermark then
    { cells with watermark := storeWatermark r.timestamp }
  else cells

end KeyedProcessOperator

namespace IntervalJoinOperator

def loadWatermark (cell : Option Int) : Time := cell.getD Time.zero

def loadWatermarks (op : IntervalJoinOperator) (cells : WatermarkCells) : IntervalJoinOperator :=
  let leftWatermark := loadWatermark cells.watermark
  let rightWatermark := loadWatermark cells.rightWatermark
  { op with clock := { op.clock with
      leftWatermark
      rightWatermark
      emittedWatermark := alignedWatermark leftWatermark rightWatermark } }

/-- `storeWatermark`: the zero time clears the cell. -/
def storeWatermark (watermark : Time) : Option Int :=
  if watermark.isZero then none else some watermark.unixNano

def advances (current : Time) (cell : Option Int) (r : Record) : Option Int :=
  if r.timestamp > current then storeWatermark r.timestamp else cell

def writes (op : IntervalJoinOperator) (cells : WatermarkCells) (r : Record) : WatermarkCells :=
  let left := advances op.clock.leftWatermark cells.watermark r
  let right := advances op.clock.rightWatermark cells.rightWatermark r
  if ¬r.isWatermark then cells
  else if r.source = op.clock.leftSource then { cells with watermark := left }
  else if r.source = op.clock.rightSource then { cells with rightWatermark := right }
  else if r.source = "" then ⟨left, right⟩
  else cells

end IntervalJoinOperator

/-! ## Operators with their cells -/

structure Backed where
  op : Operator
  cells : WatermarkCells := {}

inductive RecoveryPath
  | snapshot
  | native

namespace Operator

def watermarks : Operator → List Time
  | .window op => [op.currentWatermark]
  | .reduce _ => []
  | .keyedProcess op => [op.watermark]
  | .intervalJoin op =>
    [op.clock.leftWatermark, op.clock.rightWatermark, op.clock.emittedWatermark]

def writes : Operator → WatermarkCells → Record → WatermarkCells
  | .window op, cells, r => op.writes cells r
  | .reduce _, cells, _ => cells
  | .keyedProcess op, cells, r => op.writes cells r
  | .intervalJoin op, cells, r => op.writes cells r

/-- What `Restore` writes to the cells of a fresh backend. -/
def restoredCells : Operator → WatermarkCells
  | .window op => { watermark := WindowOperator.storeWatermark op.currentWatermark }
  | .reduce _ => {}
  | .keyedProcess op => { watermark := KeyedProcessOperator.storeWatermark op.watermark }
  | .intervalJoin op =>
    ⟨IntervalJoinOperator.storeWatermark op.clock.leftWatermark,
      IntervalJoinOperator.storeWatermark op.clock.rightWatermark⟩

def restart : Operator → WatermarkCells → Operator
  | .window op, cells =>
    .window { op with currentWatermark := WindowOperator.loadWatermark cells.watermark }
  | .reduce op, _ => .reduce op
  | .keyedProcess op, cells => .keyedProcess (op.loadWatermark cells.watermark)
  | .intervalJoin op, cells => .intervalJoin (op.loadWatermarks cells)

def reloaded : Operator → Operator
  | .window op => .window { op with currentWatermark := Time.zero, late := [] }
  | .reduce op => .reduce { fn := op.fn, values := op.values }
  | .keyedProcess op => .keyedProcess { op with watermark := Time.zero }
  | .intervalJoin op => .intervalJoin { op with
      clock := { leftSource := op.clock.leftSource, rightSource := op.clock.rightSource } }

def Fitting (t : Time) : Prop := t = Time.zero ∨ t.unixNano = t

/-- The watermarks of an operator survive a recovery: in a native checkpoint those that fit, in a
snapshot of a window those that fit except "none yet", in one of a keyed process operator those
except the epoch as well, and in one of a join those that fit except the epoch. -/
def ClockSurvives : Operator → RecoveryPath → Prop
  | .window op, .snapshot => op.currentWatermark.unixNano = op.currentWatermark
  | .window op, .native => Fitting op.currentWatermark
  | .reduce _, _ => True
  | .keyedProcess op, .snapshot => op.watermark.unixNano = op.watermark ∧ op.watermark ≠ 0
  | .keyedProcess op, .native => Fitting op.watermark
  | .intervalJoin op, .snapshot =>
    Storable op.clock.leftWatermark ∧ Storable op.clock.rightWatermark
  | .intervalJoin op, .native => Fitting op.clock.leftWatermark ∧ Fitting op.clock.rightWatermark

end Operator

namespace Backed

def start (origin : Operator) : Backed := ⟨origin.clone, {}⟩

/-- One round of the loop of `Process`; the number resolves the order of map listings. -/
def step [TimeText] [JoinText] (b : Backed) (item : Nat × Record) : Option Backed :=
  (b.op.process item.1 item.2).next.map fun op => ⟨op, b.op.writes b.cells item.2⟩

/-- The operator after a recovery, when `Process` has started. -/
def recover [TimeText] (b : Backed) : RecoveryPath → Operator
  | .snapshot => b.op.restored.restart b.op.restored.restoredCells
  | .native => b.op.reloaded.restart b.cells

end Backed

/-! ## Cells are in step with the watermarks -/

structure Mirrors (watermark : Time) (cell : Option Int) : Prop where
  started : Time.zero ≤ watermark
  held : cell = if watermark = Time.zero then none else some watermark.unixNano

theorem mirrors_start : Mirrors Time.zero none := ⟨le_refl _, by simp⟩

variable {watermark : Time} {cell : Option Int}

theorem Mirrors.advance (mirrors : Mirrors watermark cell) (ts : Time) :
    Mirrors (max watermark ts) (if ts > watermark then some ts.unixNano else cell) := by
  by_cases later : ts > watermark
  · have highest : max watermark ts = ts := max_eq_right (le_of_lt later)
    have real : ts ≠ Time.zero := ne_of_gt (lt_of_le_of_lt mirrors.started later)
    rw [if_pos later, highest]
    exact ⟨mirrors.started.trans (le_of_lt later), by rw [if_neg real]⟩
  · have highest : max watermark ts = watermark := max_eq_left (not_lt.1 later)
    rw [if_neg later, highest]
    exact mirrors

theorem Mirrors.advances (mirrors : Mirrors watermark cell) (r : Record) :
    Mirrors (max watermark r.timestamp)
      (IntervalJoinOperator.advances watermark cell r) := by
  have next := mirrors.advance r.timestamp
  by_cases later : r.timestamp > watermark
  · have real : r.timestamp ≠ Time.zero := ne_of_gt (lt_of_le_of_lt mirrors.started later)
    have stored : IntervalJoinOperator.storeWatermark r.timestamp = some r.timestamp.unixNano := by
      simp [IntervalJoinOperator.storeWatermark, Time.isZero, real]
    rw [if_pos later] at next
    rw [IntervalJoinOperator.advances, if_pos later, stored]
    exact next
  · rw [if_neg later] at next
    rw [IntervalJoinOperator.advances, if_neg later]
    exact next

theorem Mirrors.getD (mirrors : Mirrors watermark cell) :
    cell.getD Time.zero = watermark ↔ Operator.Fitting watermark := by
  rw [mirrors.held, Operator.Fitting]
  by_cases zero : watermark = Time.zero
  · simp [zero]
  · simp [zero]

theorem Time.unixNano_unixNano (t : Time) : Time.unixNano t.unixNano = t.unixNano := Int.bmod_bmod

theorem timeFromUnixNanoOrZero_unixNanoOrZero (t : Time) :
    timeFromUnixNanoOrZero (unixNanoOrZero t) =
      if t = Time.zero ∨ t.unixNano = 0 then Time.zero else t.unixNano := by
  by_cases zero : t = Time.zero <;> simp [unixNanoOrZero, timeFromUnixNanoOrZero, Time.isZero, zero]

theorem KeyedProcessOperator.readBack_iff (t : Time) :
    Time.unixNano (timeFromUnixNanoOrZero (unixNanoOrZero t)) = t ↔ t.unixNano = t ∧ t ≠ 0 := by
  rw [timeFromUnixNanoOrZero_unixNanoOrZero]
  split
  next lost =>
    rcases lost with rfl | epoch
    · decide
    · constructor
      · rintro rfl
        exact absurd epoch (by decide)
      · exact fun kept => absurd (kept.1.symm.trans epoch) kept.2
  next kept =>
    rw [Time.unixNano_unixNano]
    exact ⟨fun fits => ⟨fits, fits ▸ (not_or.1 kept).2⟩, And.left⟩

theorem IntervalJoinOperator.readBack_iff (t : Time) :
    (storeWatermark (timeFromUnixNanoOrZero (unixNanoOrZero t))).getD Time.zero = t ↔
      Operator.Storable t := by
  rw [timeFromUnixNanoOrZero_unixNanoOrZero, Operator.Storable]
  split
  next lost =>
    refine ⟨fun same => .inl same.symm, fun storable => ?_⟩
    rcases storable with rfl | ⟨fits, real⟩
    · rfl
    · exact (lost.resolve_right fun epoch => real (fits.symm.trans epoch)).symm
  next kept =>
    have later : (t.unixNano : Time) ≠ Time.zero := ne_of_gt t.zero_lt_unixNano
    rw [or_iff_right (not_or.1 kept).1]
    simp only [storeWatermark, Time.isZero, later, Time.unixNano_unixNano]
    exact ⟨fun fits => ⟨fits, fits ▸ (not_or.1 kept).2⟩, And.left⟩

theorem KeyedProcessOperator.process_watermark {op after : KeyedProcessOperator} {choice : Nat}
    {r : Record} (goes : (op.process choice r).next = some after) : after.watermark =
      if r.isBarrier then op.watermark
      else if r.isWatermark then max op.watermark r.timestamp else op.watermark := by
  have called : ∀ {current next : KeyedProcessOperator} {key : Bytes} {effect : Option KeyedEffect},
      (current.call key effect).next = some next → next.watermark = current.watermark := by
    intro current next key effect ends
    simp only [call] at ends
    split at ends
    · cases ends
    · cases ends
      rfl
  simp only [process] at goes
  split at goes
  · cases goes
    rw [if_pos ‹_›]
  · rw [if_neg ‹_›]
    split at goes
    · rw [if_pos ‹_›]
      obtain ⟨sent, fired, later, fires, passes, -⟩ :=
        Reaction.of_andThen_eq_send (Reaction.eq_send goes)
      obtain rfl : fired = after := some.inj (congrArg Reaction.next passes)
      simp only [fireTimers] at fires
      split at fires
      · cases fires
        rfl
      · split at fires
        · cases fires
          rfl
        · refine Reaction.next_forEach
            (fun current => current.watermark = max op.watermark r.timestamp)
            (fun key current next same ends => ?_) rfl (congrArg Reaction.next fires)
          simp only [fireKey] at ends
          split at ends
          · cases ends
            exact same
          · exact Reaction.next_forEach
              (fun current => current.watermark = max op.watermark r.timestamp)
              (fun ts current next same ends => (called ends).trans same) same ends
    · rw [if_neg ‹_›]
      exact called goes

theorem JoinClock.advance_sides (clock : JoinClock) (r : Record) :
    (clock.advance r).1.leftWatermark = ((clock.observe r).getD clock).leftWatermark ∧
      (clock.advance r).1.rightWatermark = ((clock.observe r).getD clock).rightWatermark := by
  simp only [advance]
  cases clock.observe r with
  | none => exact ⟨rfl, rfl⟩
  | some seen =>
    simp only [getD_some]
    split
    · exact ⟨rfl, rfl⟩
    · split <;> exact ⟨rfl, rfl⟩

theorem IntervalJoinOperator.writes_of_data {op : IntervalJoinOperator} {cells : WatermarkCells}
    {r : Record} (data : r.isMarker = false) : op.writes cells r = cells := by
  have plain : r.isBarrier = false ∧ r.isWatermark = false := by simpa [Record.isMarker] using data
  simp [writes, plain.2]

theorem IntervalJoinOperator.writes_mirrors {op : IntervalJoinOperator} {cells : WatermarkCells}
    (left : Mirrors op.clock.leftWatermark cells.watermark)
    (right : Mirrors op.clock.rightWatermark cells.rightWatermark) {r : Record}
      (is : r.isWatermark = true) :
    Mirrors (op.clock.advance r).1.leftWatermark (op.writes cells r).watermark ∧
      Mirrors (op.clock.advance r).1.rightWatermark (op.writes cells r).rightWatermark := by
  obtain ⟨movesLeft, movesRight⟩ := op.clock.advance_sides r
  rw [movesLeft, movesRight]
  simp only [JoinClock.observe, writes, is, not_true, if_false]
  split_ifs
  · exact ⟨left.advances r, right⟩
  · exact ⟨left, right.advances r⟩
  · exact ⟨left.advances r, right.advances r⟩
  · exact ⟨left, right⟩

namespace Backed

def Inv (b : Backed) : Prop :=
  match b.op with
  | .window op => Mirrors op.currentWatermark b.cells.watermark
  | .reduce _ => True
  | .keyedProcess op => Mirrors op.watermark b.cells.watermark
  | .intervalJoin op => Mirrors op.clock.leftWatermark b.cells.watermark ∧
    Mirrors op.clock.rightWatermark b.cells.rightWatermark ∧ op.clock.Settled

theorem inv_start (origin : Operator) : (start origin).Inv := by
  cases origin with
  | window op | keyedProcess op => exact mirrors_start
  | reduce op => trivial
  | intervalJoin op =>
    exact ⟨mirrors_start, mirrors_start, le_refl _, le_refl _, rfl⟩

section Runs

variable [TimeText] [JoinText]

theorem Inv.step {b c : Backed} (inv : b.Inv) {item : Nat × Record} (moves : b.step item = some c) :
    c.Inv := by
  obtain ⟨choice, r⟩ := item
  obtain ⟨after, goes, rfl⟩ := map_eq_some_iff.1 moves
  obtain ⟨op, cells⟩ := b
  cases op with obtain ⟨next, ends, rfl⟩ := map_eq_some_iff.1 goes
  | window op =>
    have round := WindowOperator.round_of_process (Reaction.eq_send ends)
    have mirrors : Mirrors op.currentWatermark cells.watermark := inv
    simp only [Inv, Operator.writes, WindowOperator.writes, round.currentWatermark,
      WindowOperator.advance]
    cases is : r.isWatermark with
    | false => simpa using mirrors
    | true =>
      have advanced := mirrors.advance r.timestamp
      simp only [if_true, true_and]
      split_ifs at advanced ⊢
      · exact advanced
      · exact advanced
  | reduce op =>
    trivial
  | keyedProcess op =>
    have mirrors : Mirrors op.watermark cells.watermark := inv
    simp only [Inv, Operator.writes, KeyedProcessOperator.writes,
      KeyedProcessOperator.process_watermark ends]
    cases barrier : r.isBarrier with
    | true => simpa using mirrors
    | false =>
      cases is : r.isWatermark with
      | false => simpa using mirrors
      | true =>
        have advanced := mirrors.advance r.timestamp
        simp only [Bool.false_eq_true, not_false_eq_true, if_true, if_false, true_and]
        split_ifs at advanced ⊢
        · exact advanced
        · exact advanced
  | intervalJoin op =>
    obtain ⟨left, right, settled⟩ := inv
    obtain ⟨sends, reacts⟩ : ∃ sends, op.process r = .send sends next := ⟨_, Reaction.eq_send ends⟩
    cases IntervalJoinOperator.turn_of_process reacts with
    | watermark is leftRecords rightRecords evicted =>
      obtain ⟨movedLeft, movedRight⟩ := IntervalJoinOperator.writes_mirrors left right is
      exact ⟨movedLeft, movedRight, settled.advance r⟩
    | barrier plain is =>
      have same : op.writes cells r = cells := by simp [IntervalJoinOperator.writes, plain]
      simp only [Inv, Operator.writes, same]
      exact ⟨left, right, settled⟩
    | stranger data outside =>
      simp only [Inv, Operator.writes, IntervalJoinOperator.writes_of_data data]
      exact ⟨left, right, settled⟩
    | data side data inside joined kept own across =>
      simp only [Inv, Operator.writes, IntervalJoinOperator.writes_of_data data]
      rw [kept]
      exact ⟨left, right, settled⟩

theorem inv_of_reach {origin : Operator} {b : Backed} (reach : Reach step Always (start origin) b) :
    b.Inv := by
  induction reach with
  | refl => exact inv_start origin
  | tail item reach always moves inv => exact inv.step moves

/-- A recovered operator has the watermarks it had exactly when they survive the recovery. -/
theorem recover_watermarks_iff {origin : Operator} {b : Backed}
    (reach : Reach step Always (start origin) b) (path : RecoveryPath) :
    (b.recover path).watermarks = b.op.watermarks ↔ b.op.ClockSurvives path := by
  have inv := inv_of_reach reach
  obtain ⟨op, cells⟩ := b
  cases op with
  | window op =>
    have mirrors : Mirrors op.currentWatermark cells.watermark := inv
    cases path with
    | snapshot =>
      show [Time.unixNano op.currentWatermark.unixNano] = [op.currentWatermark] ↔
        op.currentWatermark.unixNano = op.currentWatermark
      rw [Time.unixNano_unixNano, singleton_inj]
    | native =>
      show [cells.watermark.getD Time.zero] = [op.currentWatermark] ↔
        Operator.Fitting op.currentWatermark
      rw [singleton_inj, mirrors.getD]
  | reduce op => exact ⟨fun _ => trivial, fun _ => by cases path <;> rfl⟩
  | keyedProcess op =>
    have mirrors : Mirrors op.watermark cells.watermark := inv
    cases path with
    | snapshot =>
      show [Time.unixNano (Time.unixNano (timeFromUnixNanoOrZero (unixNanoOrZero op.watermark)))] =
        [op.watermark] ↔ op.watermark.unixNano = op.watermark ∧ op.watermark ≠ 0
      rw [Time.unixNano_unixNano, singleton_inj, KeyedProcessOperator.readBack_iff]
    | native =>
      show [cells.watermark.getD Time.zero] = [op.watermark] ↔ Operator.Fitting op.watermark
      rw [singleton_inj, mirrors.getD]
  | intervalJoin op =>
    obtain ⟨left, right, settled⟩ := inv
    -- The watermark passed on is computed from those of the sides, as it was before.
    have whole : ∀ l r : Time, [l, r, alignedWatermark l r] = [op.clock.leftWatermark,
        op.clock.rightWatermark, op.clock.emittedWatermark] ↔
          l = op.clock.leftWatermark ∧ r = op.clock.rightWatermark := by
      intro l r
      constructor
      · intro same
        exact ⟨(cons.inj same).1, (cons.inj (cons.inj same).2).1⟩
      · rintro ⟨rfl, rfl⟩
        rw [settled.emitted]
        rfl
    cases path with
    | snapshot =>
      refine (whole _ _).trans (and_congr ?_ ?_)
      · exact IntervalJoinOperator.readBack_iff op.clock.leftWatermark
      · exact IntervalJoinOperator.readBack_iff op.clock.rightWatermark
    | native => exact (whole _ _).trans (and_congr left.getD right.getD)

end Runs

section Examples

local instance : TimeText := byteTimeText

local instance : JoinText := plainJoinText

def ticking : Operator := .window { assigner := .tumbling ⟨1, 0, Int.one_pos⟩ }

def watching : Operator := .keyedProcess { fn := fun _ _ => some ⟨∅, [], []⟩ }

def pairing : Operator :=
  .intervalJoin { clock := ⟨"l", "r", 0, 0, 0⟩, before := 1, after := 1 }

/-- A watermark of an ordinary time survives on both paths. -/
theorem recover_watermarks_ticking : ∃ b : Backed, Reach step Always (start ticking) b ∧
    b.op.watermarks = [5] ∧ (b.recover .snapshot).watermarks = [5] ∧
      (b.recover .native).watermarks = [5] := by
  let b : Backed := ⟨.window { assigner := .tumbling ⟨1, 0, Int.one_pos⟩, currentWatermark := 5 },
    { watermark := some 5 }⟩
  have reach : Reach step Always (start ticking) b := .of_run [(0, Record.newWatermark 5)] rfl
  have restored := (recover_watermarks_iff reach .snapshot).2 (show Time.unixNano 5 = 5 by decide)
  have reloaded :=
    (recover_watermarks_iff reach .native).2 (.inr (show Time.unixNano 5 = 5 by decide))
  exact ⟨b, reach, rfl, restored, reloaded⟩

/-- The recovered operator has other watermarks than the one that ran. -/
def MovesClock (origin : Operator) (input : List (Nat × Record)) (path : RecoveryPath) : Bool :=
  (Transition.run step (start origin) input).any fun b =>
    decide ((b.recover path).watermarks ≠ b.op.watermarks)

/-- Window and keyed process operators without a watermark are restored with one, the epoch is
restored as none by a join and by a keyed process operator, and the maximum watermark is lost by
each operator on both paths. -/
theorem recover_moves_watermarks :
    (MovesClock ticking [] .snapshot ∧ MovesClock watching [] .snapshot) ∧
      (MovesClock pairing [(0, Record.newWatermark 0)] .snapshot ∧
        MovesClock watching [(0, Record.newWatermark 0)] .snapshot) ∧
      ∀ origin ∈ [ticking, watching, pairing], ∀ path ∈ [RecoveryPath.snapshot, .native],
        MovesClock origin [(0, Source.WatermarkSource.maxWatermark)] path := by
  decide +kernel

end Examples

end Backed

end Weibo
