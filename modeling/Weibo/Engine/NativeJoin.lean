import Weibo.Lib.Transition
import Weibo.Operator.JoinRuns

/-!
# Checkpoints of a native join

The barrier injector of `executeNativeJoin` sits behind the join: when the barrier has reached the
sink, `collectSnapshots` takes the join's state and `saveCheckpoint` asks both sources for their
positions, while they go on. Bounded channels would only remove schedules.
-/

namespace Weibo.Engine

open List Option Function

open Chain (Runs)
open IntervalJoinOperator (joins)
open Transition (Reach)

/-- A source of the join and the goroutine of `runJoinSource` behind it. -/
structure JoinInput where
  sent : List Record := []
  below : List Record := []
  raw : List Record := []
  hand : Option Record := none

structure Arrival where
  side : Side
  record : Record
  deriving DecidableEq

/-- The record as the join sees it: `runJoinSource` names the source of a record that has none. -/
def Arrival.named (names : Side → String) (a : Arrival) : Record :=
  if a.record.source = "" then { a.record with source := names a.side } else a.record

structure Handling where
  arrival : Arrival
  pending : List Record
  after : Option IntervalJoinOperator

inductive PostItem
  | joined (r : Record) (cause : Arrival)
  | barrier (id : CheckpointID)

/-- What `saveCheckpoint` has collected so far. -/
structure JoinSave where
  id : CheckpointID
  state : IntervalJoinOperator
  consumed : List Arrival
  ahead : List Arrival
  positions : Side → Option (List Record)

structure JoinCheckpoint where
  id : CheckpointID
  state : IntervalJoinOperator
  consumed : List Arrival
  ahead : List Arrival
  positions : Side → List Record

/-- The state of `executeNativeJoin` that checkpoints depend on. -/
structure NativeJoin where
  input : Side → JoinInput
  mux : List Arrival
  op : IntervalJoinOperator
  handling : Option Handling
  consumed : List Arrival
  joined : List (Record × Arrival)
  post : List PostItem
  delivered : List Arrival
  saving : Option JoinSave
  checkpoints : List JoinCheckpoint

inductive NativeJoinAction
  | track (side : Side) (r : Record)
  | send (side : Side) (r : Record)
  | take (side : Side)
  | put (side : Side)
  | handle
  | emit
  | finish
  | forward
  | inject (id : CheckpointID)
  | deliver
  | snapshot
  | read (side : Side)
  | save

namespace NativeJoin

def start (op : IntervalJoinOperator) : NativeJoin where
  input _ := {}
  mux := []
  op := op
  handling := none
  consumed := []
  joined := []
  post := []
  delivered := []
  saving := none
  checkpoints := []

def setInput (s : NativeJoin) (side : Side) (input : JoinInput) : NativeJoin :=
  { s with input := update s.input side input }

def ofSide (side : Side) (arrivals : List Arrival) : List Record :=
  (arrivals.filter fun a => a.side = side).map Arrival.record

@[simp]
theorem ofSide_append (side : Side) (xs ys : List Arrival) :
    ofSide side (xs ++ ys) = ofSide side xs ++ ofSide side ys := by
  simp [ofSide]

theorem ofSide_singleton (side : Side) (a : Arrival) :
    ofSide side [a] = if a.side = side then [a.record] else [] := by
  by_cases same : a.side = side <;> simp [ofSide, same]

theorem mem_ofSide {side : Side} {r : Record} {arrivals : List Arrival} :
    r ∈ ofSide side arrivals ↔ ⟨side, r⟩ ∈ arrivals := by
  simp only [ofSide, List.mem_map, mem_filter, decide_eq_true_eq]
  constructor
  · rintro ⟨⟨s, q⟩, ⟨mem, rfl⟩, rfl⟩
    exact mem
  · exact fun mem => ⟨⟨side, r⟩, ⟨mem, rfl⟩, rfl⟩

section Runs

variable [JoinText]

def step (names : Side → String) (s : NativeJoin) : NativeJoinAction → Option NativeJoin
  | .track side r =>
    some (s.setInput side { s.input side with below := (s.input side).below ++ [r] })
  | .send side r =>
    some (s.setInput side { s.input side with
      sent := (s.input side).sent ++ [r], raw := (s.input side).raw ++ [r] })
  | .take side =>
    match (s.input side).hand, (s.input side).raw with
    | none, r :: raw => some (s.setInput side { s.input side with raw, hand := some r })
    | _, _ => none
  | .put side =>
    match (s.input side).hand with
    | some r =>
      some { s.setInput side { s.input side with hand := none } with mux := s.mux ++ [⟨side, r⟩] }
    | none => none
  | .handle =>
    match s.handling, s.mux with
    | none, a :: mux =>
      let reaction := s.op.process (a.named names)
      -- a watermark changes the state before its output, a record after it
      let op := if a.record.isWatermark then reaction.next.getD s.op else s.op
      some { s with mux, op, handling := some ⟨a, reaction.sends, reaction.next⟩ }
    | _, _ => none
  | .emit =>
    match s.handling with
    | some ⟨a, r :: pending, after⟩ =>
      some { s with joined := s.joined ++ [(r, a)], handling := some ⟨a, pending, after⟩ }
    | _ => none
  | .finish =>
    match s.handling with
    | some ⟨a, [], some op⟩ => some { s with op, handling := none, consumed := s.consumed ++ [a] }
    | _ => none
  | .forward =>
    match s.joined with
    | (r, a) :: joined => some { s with joined, post := s.post ++ [.joined r a] }
    | [] => none
  | .inject id => some { s with post := s.post ++ [.barrier id] }
  | .deliver =>
    match s.saving, s.post with
    | none, .joined _ a :: post => some { s with post, delivered := s.delivered ++ [a] }
    | _, _ => none
  | .snapshot =>
    match s.saving, s.post with
    | none, .barrier id :: post =>
      some { s with post, saving := some ⟨id, s.op, s.consumed, s.delivered, fun _ => none⟩ }
    | _, _ => none
  | .read side =>
    match s.saving with
    | some save =>
      some { s with saving := some { save with
        positions := update save.positions side (some (s.input side).below) } }
    | none => none
  | .save =>
    match s.saving with
    | some save =>
      match save.positions .left, save.positions .right with
      | some left, some right =>
        some { s with
          saving := none
          checkpoints := s.checkpoints ++ [⟨save.id, save.state, save.consumed, save.ahead,
            fun | .left => left | .right => right⟩] }
      | _, _ => none
    | none => none

/-- The positions and the state of a checkpoint describe the same records: a record is below the
stored position of its source exactly if the stored join has consumed it or a joined record
ahead of the barrier was made from it. -/
def ConsistentCut (cp : JoinCheckpoint) : Prop :=
  ∀ side r, r.isMarker = false →
    (r ∈ cp.positions side ↔ ⟨side, r⟩ ∈ cp.consumed ∨ ⟨side, r⟩ ∈ cp.ahead)

/-- Nothing is on its way from a source to the join, and the source's position is that of the
records it has sent. -/
structure Settled (s : NativeJoin) : Prop where
  tracked : ∀ side, (Record.data (s.input side).below).Perm (Record.data (s.input side).sent)
  raw : ∀ side, (s.input side).raw = []
  hand : ∀ side, (s.input side).hand = none
  mux : s.mux = []
  idle : s.handling = none

instance (s : NativeJoin) : Decidable (Settled s) :=
  decidable_of_iff ((∀ side ∈ [Side.left, Side.right],
      (Record.data (s.input side).below).Perm (Record.data (s.input side).sent) ∧
        (s.input side).raw = [] ∧ (s.input side).hand = none) ∧ s.mux = [] ∧
          s.handling.isNone = true)
    ⟨fun ⟨sides, mux, idle⟩ =>
      have all : ∀ side : Side, side ∈ [Side.left, Side.right] := fun side => by cases side <;> simp
      ⟨fun side => (sides side (all side)).1, fun side => (sides side (all side)).2.1,
        fun side => (sides side (all side)).2.2, mux, isNone_iff_eq_none.1 idle⟩,
    fun settled => ⟨fun side _ => ⟨settled.tracked side, settled.raw side, settled.hand side⟩,
      settled.mux, isNone_iff_eq_none.2 settled.idle⟩⟩

/-- The condition for checkpoints to be consistent: the join's state is taken when nothing is on
its way, and the sources wait until their positions have been read. -/
def Quiet (s : NativeJoin) : NativeJoinAction → Prop
  | .snapshot => Settled s
  | .track _ _ => s.saving = none
  | .send _ _ => s.saving = none
  | _ => True

instance (s : NativeJoin) : (a : NativeJoinAction) → Decidable (Quiet s a)
  | .snapshot => inferInstanceAs (Decidable (Settled s))
  | .track _ _ | .send _ _ => inferInstanceAs (Decidable (s.saving = none))
  | .take _ | .put _ | .handle | .emit | .finish | .forward | .inject _ | .deliver | .read _
  | .save => isTrue trivial

/-! ## What flows where -/

def inHand (s : NativeJoin) : List Arrival := (s.handling.map Handling.arrival).toList

/-- What the join has taken from `mux`. -/
def taken (s : NativeJoin) : List Arrival := s.consumed ++ s.inHand

/-- A state of the join after the arrivals `consumed`. -/
def StateAfter (names : Side → String) (op : IntervalJoinOperator) (consumed : List Arrival)
    (state : IntervalJoinOperator) : Prop :=
  ∃ output, Runs joins op (consumed.map (Arrival.named names)) output state

structure Inv (names : Side → String) (op : IntervalJoinOperator) (s : NativeJoin) : Prop where
  conserved : ∀ side, (s.input side).sent = ofSide side (s.taken ++ s.mux) ++
    (s.input side).hand.toList ++ (s.input side).raw
  replayed : ∃ before, StateAfter names op s.consumed before ∧
    match s.handling with
    | none => s.op = before
    | some h => (before.process (h.arrival.named names)).next = h.after
  emitted : ∀ item ∈ s.joined, item.2 ∈ s.taken
  forwarded : ∀ r cause, .joined r cause ∈ s.post → cause ∈ s.taken
  received : ∀ cause ∈ s.delivered, cause ∈ s.taken

theorem inv_start (names : Side → String) (op : IntervalJoinOperator) :
    Inv names op (start op) where
  conserved := by simp [start, taken, inHand, ofSide]
  replayed := ⟨op, ⟨[], .nil op⟩, rfl⟩
  emitted := by simp [start]
  forwarded := by simp [start]
  received := by simp [start]

variable {names : Side → String} {op : IntervalJoinOperator} {s t : NativeJoin}

theorem Inv.setInput (inv : Inv names op s) {side : Side} {input : JoinInput} (mux : List Arrival)
    (conserved : input.sent = ofSide side (s.taken ++ mux) ++ input.hand.toList ++ input.raw)
    (others : ∀ other, other ≠ side → ofSide other (s.taken ++ mux) = ofSide other
    (s.taken ++ s.mux)) : Inv names op { s.setInput side input with mux } := by
  refine { inv with conserved := fun other => ?_ }
  change ((s.setInput side input).input other).sent = ofSide other (s.taken ++ mux) ++
    ((s.setInput side input).input other).hand.toList ++ ((s.setInput side input).input other).raw
  by_cases same : other = side
  · subst same
    simpa [NativeJoin.setInput] using conserved
  · rw [others other same]
    simpa [NativeJoin.setInput, same] using inv.conserved other

theorem Inv.step {a : NativeJoinAction} (inv : Inv names op s) (moves : step names s a = some t) :
    Inv names op t := by
  cases a with simp only [NativeJoin.step] at moves
  | track side r =>
    cases moves
    exact inv.setInput s.mux (inv.conserved side) fun _ _ => rfl
  | send side r =>
    cases moves
    exact inv.setInput s.mux (by simp [inv.conserved side]) fun _ _ => rfl
  | take side =>
    split at moves
    next r raw hand queued =>
      cases moves
      exact inv.setInput s.mux (by simp [inv.conserved side, hand, queued]) fun _ _ => rfl
    next => cases moves
  | put side =>
    split at moves
    next r hand =>
      cases moves
      exact inv.setInput _ (by simp [inv.conserved side, hand, ofSide_singleton])
        fun other differs => by
        simp [ofSide_singleton, differs.symm]
    next => cases moves
  | handle =>
    split at moves
    next a mux idle queued =>
      cases moves
      obtain ⟨before, after, state⟩ := inv.replayed
      rw [idle] at state
      have more : ∀ cause, cause ∈ s.taken → cause ∈ s.consumed ++ [a] := by
        intro cause mem
        exact mem_append_left _ (by simpa [taken, inHand, idle] using mem)
      refine ⟨fun side => ?_, ⟨before, after, by rw [← state]⟩, ?_, ?_, ?_⟩
      · simpa [taken, inHand, queued, idle] using inv.conserved side
      · exact fun item mem => more _ (inv.emitted item mem)
      · exact fun r cause mem => more _ (inv.forwarded r cause mem)
      · exact fun cause mem => more _ (inv.received cause mem)
    · cases moves
  | emit =>
    split at moves
    next a r pending after handling =>
      cases moves
      have kept : ∀ cause, cause ∈ s.taken → cause ∈ s.consumed ++ [a] := by
        simp [taken, inHand, handling]
      refine ⟨fun side => ?_, ?_, fun item mem => ?_, ?_, ?_⟩
      · simpa [taken, inHand, handling] using inv.conserved side
      · simpa [handling] using inv.replayed
      · show item.2 ∈ s.consumed ++ [a]
        rcases mem_append.1 mem with old | new
        · exact kept _ (inv.emitted item old)
        · obtain rfl := mem_singleton.1 new
          simp
      · exact fun r cause mem => kept _ (inv.forwarded r cause mem)
      · exact fun cause mem => kept _ (inv.received cause mem)
    · cases moves
  | finish =>
    split at moves
    next a next handling =>
      cases moves
      have kept : ∀ cause, cause ∈ s.taken → cause ∈ s.consumed ++ [a] ++ [] := by
        simp [taken, inHand, handling]
      obtain ⟨before, ⟨output, runs⟩, goes⟩ := inv.replayed
      rw [handling] at goes
      refine ⟨fun side => ?_, ⟨next, ?_, rfl⟩, ?_, ?_, ?_⟩
      · simpa [taken, inHand, handling] using inv.conserved side
      · have one : Runs joins before [a.named names] _ next :=
          .cons 0 (Reaction.eq_send goes) (.nil next)
        exact ⟨_, by rw [map_append]; exact runs.append one⟩
      · exact fun item mem => kept _ (inv.emitted item mem)
      · exact fun r cause mem => kept _ (inv.forwarded r cause mem)
      · exact fun cause mem => kept _ (inv.received cause mem)
    · cases moves
  | forward =>
    split at moves
    next r a joined queued =>
      cases moves
      refine { inv with
        emitted := fun item mem => inv.emitted item (queued ▸ .tail _ mem)
        forwarded := fun q cause mem => ?_ }
      rcases mem_append.1 mem with old | new
      · exact inv.forwarded q cause old
      · cases mem_singleton.1 new
        exact inv.emitted (r, a) (queued ▸ .head _)
    · cases moves
  | inject id =>
    cases moves
    refine { inv with forwarded := fun q cause mem => ?_ }
    rcases mem_append.1 mem with old | new
    · exact inv.forwarded q cause old
    · cases mem_singleton.1 new
  | deliver =>
    split at moves
    next r a post _ queued =>
      cases moves
      refine { inv with
        forwarded := fun q cause mem => inv.forwarded q cause (queued ▸ .tail _ mem)
        received := fun cause mem => ?_ }
      rcases mem_append.1 mem with old | new
      · exact inv.received cause old
      · obtain rfl := mem_singleton.1 new
        exact inv.forwarded r _ (queued ▸ .head _)
    · cases moves
  | snapshot =>
    split at moves
    next id post _ queued =>
      cases moves
      exact { inv with
        forwarded := fun q cause mem => inv.forwarded q cause (queued ▸ .tail _ mem) }
    · cases moves
  | read side =>
    split at moves
    · cases moves
      exact { inv with }
    · cases moves
  | save =>
    split at moves
    · split at moves
      · cases moves
        exact { inv with }
      · cases moves
    · cases moves

/-! ## Consistent cuts -/

structure Agrees (names : Side → String) (op : IntervalJoinOperator)
    (positions : Side → List Record) (state : IntervalJoinOperator)
    (consumed ahead : List Arrival) : Prop where
  covered : ∀ side r, r.isMarker = false → (r ∈ positions side ↔ ⟨side, r⟩ ∈ consumed)
  made : ∀ cause ∈ ahead, cause ∈ consumed
  replays : StateAfter names op consumed state

structure Cuts (names : Side → String) (op : IntervalJoinOperator) (s : NativeJoin) : Prop where
  saving : ∀ save, s.saving = some save →
    Agrees names op (fun side => (s.input side).below) save.state save.consumed save.ahead
  read : ∀ save, s.saving = some save → ∀ side below, save.positions side = some below →
    below = (s.input side).below
  saved : ∀ cp ∈ s.checkpoints, Agrees names op cp.positions cp.state cp.consumed cp.ahead

theorem Settled.agrees (settled : Settled s) (inv : Inv names op s) :
    Agrees names op (fun side => (s.input side).below) s.op s.consumed s.delivered := by
  have taken : s.taken = s.consumed := by simp [taken, inHand, settled.idle]
  obtain ⟨before, state, same⟩ := inv.replayed
  rw [settled.idle] at same
  refine ⟨fun side r data => ?_, fun cause mem => taken ▸ inv.received cause mem, same ▸ state⟩
  have sent := inv.conserved side
  rw [settled.raw, settled.hand, settled.mux, taken] at sent
  have same : r ∈ (s.input side).below ↔ r ∈ (s.input side).sent := by
    simpa [Record.data, data] using (settled.tracked side).mem_iff (a := r)
  rw [same, sent]
  simp [mem_ofSide]

theorem Cuts.setInput (cuts : Cuts names op s) {side : Side} {input : JoinInput}
    (mux : List Arrival) (same : input.below = (s.input side).below) : Cuts names op
    { s.setInput side input with mux } := by
  have below : (fun other => ((s.setInput side input).input other).below) =
      fun other => (s.input other).below := by
    funext other
    by_cases eq : other = side
    · subst eq
      simp [NativeJoin.setInput, same]
    · simp [NativeJoin.setInput, eq]
  refine { cuts with saving := fun save is => ?_, read := fun save is other => ?_ }
  · rw [below]
    exact cuts.saving save is
  · rw [congrFun below other]
    exact cuts.read save is other

theorem Cuts.step {a : NativeJoinAction} (cuts : Cuts names op s) (inv : Inv names op s)
    (quiet : Quiet s a) (moves : step names s a = some t) : Cuts names op t := by
  cases a with simp only [NativeJoin.step] at moves
  | track side r | send side r =>
    cases moves
    have free : s.saving = none := quiet
    exact { cuts with
      saving := fun save is => nomatch free.symm.trans is
      read := fun save is => nomatch free.symm.trans is }
  | take side | put side =>
    split at moves
    · cases moves
      exact cuts.setInput _ rfl
    · cases moves
  | handle | emit | finish | forward | deliver =>
    split at moves
    · cases moves
      exact { cuts with }
    · cases moves
  | inject id =>
    cases moves
    exact { cuts with }
  | snapshot =>
    split at moves
    · cases moves
      refine ⟨fun save is => ?_, fun save is side below read => ?_, cuts.saved⟩
      · cases is
        have settled : Settled s := quiet
        exact settled.agrees inv
      · cases is
        cases read
    · cases moves
  | read side =>
    split at moves
    next save saving =>
      cases moves
      refine ⟨fun _ is => ?_, fun _ is other below read => ?_, cuts.saved⟩
      · cases is
        exact cuts.saving save saving
      · cases is
        by_cases eq : other = side
        · subst eq
          simpa using read.symm
        · exact cuts.read save saving other below (by simpa [eq] using read)
    · cases moves
  | save =>
    split at moves
    next save saving =>
      split at moves
      next left right readLeft readRight =>
        cases moves
        refine ⟨fun _ is => (by cases is), fun _ is => (by cases is), fun cp mem => ?_⟩
        rcases mem_append.1 mem with old | new
        · exact cuts.saved cp old
        · obtain rfl := mem_singleton.1 new
          have agrees := cuts.saving save saving
          refine ⟨fun side r data => ?_, agrees.made, agrees.replays⟩
          rw [← agrees.covered side r data]
          cases side with
          | left => rw [cuts.read save saving .left left readLeft]
          | right => rw [cuts.read save saving .right right readRight]
      · cases moves
    · cases moves

end Runs

section Examples

attribute [local instance] JoinText.blank

def orders : IntervalJoinOperator where
  clock := { leftSource := "orders", rightSource := "payments" }
  before := 5
  after := 5

def orderNames : Side → String
  | .left => "orders"
  | .right => "payments"

def order : Record := { key := [1], timestamp := 1, offset := 7 }

end Examples

end NativeJoin

end Weibo.Engine
