import Weibo.Lib.Slices
import Weibo.Lib.ChainFlow
import Weibo.Operator.Stateless

/-!
# The worker of a stateless stage

`runWorker` applies its operators to a record in two buffers that it reuses and swaps after every
operator. `append` writes into a buffer while it has room, so the loop is right because the two
never share an array.
-/

namespace Weibo

open List Option

open Slices (Slice Heap Kept)

instance : Inhabited Record := ⟨{}⟩

namespace StatelessOperator

/-! ## Operators that do not fail -/

def Total (op : StatelessOperator) : Prop := ∀ r, (op.processOne r).isSome = true

def apply (op : StatelessOperator) (r : Record) : List Record := (op.processOne r).getD []

def composed (ops : List StatelessOperator) (r : Record) : List Record :=
  ops.foldl (fun records op => records.flatMap op.apply) [r]

def replaced (ops : List StatelessOperator) (r : Record) : List Record :=
  if r.isMarker then [r] else composed ops r

theorem Total.processEach {op : StatelessOperator} (total : op.Total) (records : List Record) :
    op.processEach records = some (records.flatMap op.apply) := by
  induction records with
  | nil => rfl
  | cons r rest ih =>
    obtain ⟨next, here⟩ := isSome_iff_exists.1 (total r)
    simp [StatelessOperator.processEach, here, ih, apply]

variable {ops : List StatelessOperator}

theorem processAll_total (total : ∀ op ∈ ops, op.Total) (records : List Record) :
    processAll ops records =
    some (ops.foldl (fun records op => records.flatMap op.apply) records) := by
  induction ops generalizing records with
  | nil => rfl
  | cons op ops ih =>
    have rest : ∀ op ∈ ops, op.Total := fun op mem => total op (.tail _ mem)
    simp [processAll, (total op mem_cons_self).processEach, ih rest]

theorem runWorker_total (total : ∀ op ∈ ops, op.Total) (r : Record) :
    runWorker ops r = .send (replaced ops r) ops := by
  unfold runWorker replaced
  split
  · rfl
  · rw [processAll_total total]
    rfl

theorem composed_data (total : ∀ op ∈ ops, op.Total) (plain : ∀ op ∈ ops, op.Plain) {r : Record}
    (data : r.isMarker = false) : ∀ b ∈ composed ops r, b.isMarker = false :=
  processAll_data plain (by simpa using data) (processAll_total total [r])

theorem processAll_nil (ops : List StatelessOperator) : processAll ops [] = some [] := by
  induction ops with
  | nil => rfl
  | cons op ops ih => simpa [processAll, StatelessOperator.processEach] using ih

end StatelessOperator

/-! ## The two buffers -/

structure Buffers where
  heap : Heap Record
  bufA : Slice
  bufB : Slice

namespace Buffers

open StatelessOperator

def start : Buffers := ⟨[[], []], ⟨0, 0⟩, ⟨1, 0⟩⟩

/-- `for _, rec := range cur`: apply an operator to the last `left` records of `cur` and append
the results to `alt`. -/
def applyEach (grow : Nat → Nat) (op : StatelessOperator) (cur : Slice) :
    (left : Nat) → Heap Record → Slice → Option (Heap Record × Slice)
  | 0, heap, alt => some (heap, alt)
  | left + 1, heap, alt => do
    let next ← op.processOne (heap.get cur (cur.len - (left + 1)))
    let appended := heap.append grow alt next
    applyEach grow op cur left appended.1 appended.2

/-- `for i, sp := range sps`: the arrays, `cur` and `alt` after the loop over the operators. -/
def applyAll (grow : Nat → Nat) :
    List StatelessOperator → Heap Record → Slice → Slice → Option (Heap Record × Slice × Slice)
  | [], heap, cur, alt => some (heap, cur, alt)
  | op :: ops, heap, cur, alt => do
    let (heap, results) ← applyEach grow op cur cur.len heap alt.cleared
    -- `cur, alt = alt, cur`, and nothing is left to do when no record is in hand.
    if results.len = 0 then some (heap, results, cur) else applyAll grow ops heap results cur

/-- One round of the loop of `runWorker`. -/
def round (grow : Nat → Nat) (ops : List StatelessOperator) (buffers : Buffers) (r : Record) :
    Reaction Buffers Record :=
  if r.isMarker then .send [r] buffers
  else
    let appended := buffers.heap.append grow buffers.bufA.cleared [r]
    match applyAll grow ops appended.1 appended.2 buffers.bufB with
    | some (heap, cur, alt) => .send (heap.contents cur) ⟨heap, cur, alt⟩
    | none => .fail

/-! ## What the loops compute -/

structure Apart (heap : Heap Record) (cur alt : Slice) : Prop where
  holds : cur.Within heap
  collects : alt.Within heap
  apart : cur.array ≠ alt.array

/-- The two buffers share no memory. -/
def Separate (buffers : Buffers) : Prop := Apart buffers.heap buffers.bufA buffers.bufB

structure Collected (heap : Heap Record) (cur alt : Slice) (results : List Record)
    (after : Heap Record × Slice) : Prop where
  apart : Apart after.1 cur after.2
  untouched : after.1.contents cur = heap.contents cur
  appended : after.1.contents after.2 = heap.contents alt ++ results

variable {heap : Heap Record}

theorem length_contents {s : Slice} (within : s.Within heap) : (heap.contents s).length = s.len :=
  length_take_of_le within.room

theorem applyEach_spec (grow : Nat → Nat) (op : StatelessOperator) {cur alt : Slice} {left : Nat}
    (apart : Apart heap cur alt) (inside : left ≤ cur.len) : Option.Rel (Collected heap cur alt)
      (op.processEach ((heap.contents cur).drop (cur.len - left)))
        (applyEach grow op cur left heap alt) := by
  have length := length_contents apart.holds
  induction left generalizing heap alt with
  | zero =>
    rw [drop_eq_nil_of_le (by omega)]
    exact .some ⟨apart, rfl, by simp⟩
  | succ left ih =>
    have bound : cur.len - (left + 1) < (heap.contents cur).length := by omega
    have split : (heap.contents cur).drop (cur.len - (left + 1)) =
        heap.get cur (cur.len - (left + 1)) :: (heap.contents cur).drop (cur.len - left) := by
      rw [drop_eq_getElem_cons bound, Heap.get_eq (List.getElem?_eq_getElem bound)]
      congr 2
      omega
    rw [split, applyEach, StatelessOperator.processEach]
    cases op.processOne (heap.get cur (cur.len - (left + 1))) with
    | none => exact .none
    | some next =>
      obtain ⟨within, appended, frame⟩ := Slices.append_spec grow apart.collects next
      have kept := frame cur apart.holds apart.apart
      have later := ih ⟨kept.within, within, kept.apart⟩ (by omega) (by rw [kept.contents, length])
      rw [kept.contents] at later
      simp only [bind_eq_bind, bind_some]
      generalize op.processEach ((heap.contents cur).drop (cur.len - left)) = rest at later
      generalize applyEach grow op cur left _ _ = runs at later
      cases later with
      | none => exact .none
      | some collected =>
        refine .some ⟨collected.apart, collected.untouched.trans kept.contents, ?_⟩
        rw [collected.appended, appended, append_assoc]

theorem applyAll_spec (grow : Nat → Nat) (ops : List StatelessOperator)
    {cur alt : Slice} (apart : Apart heap cur alt) :
    Option.Rel (fun results after => Apart after.1 after.2.1 after.2.2 ∧
      after.1.contents after.2.1 = results)
      (processAll ops (heap.contents cur)) (applyAll grow ops heap cur alt) := by
  induction ops generalizing heap cur alt with
  | nil => exact .some ⟨apart, rfl⟩
  | cons op ops ih =>
    have cleared : Apart heap cur alt.cleared :=
      ⟨apart.holds, apart.collects.cleared, apart.apart⟩
    have each := applyEach_spec grow op cleared (Nat.le_refl _)
    rw [Nat.sub_self, drop_zero] at each
    rw [processAll, applyAll]
    generalize op.processEach (heap.contents cur) = results at each
    generalize applyEach grow op cur cur.len heap alt.cleared = runs at each
    cases each with
    | none => exact .none
    | @some results after collected =>
      obtain ⟨next, made⟩ := after
      have swapped : Apart next made cur :=
        ⟨collected.apart.collects, collected.apart.holds, collected.apart.apart.symm⟩
      have holds : next.contents made = results := by
        rw [collected.appended]
        simp [Heap.contents, Slice.cleared]
      simp only [bind_eq_bind, bind_some]
      split
      · -- Nothing is in hand, so the operators that follow would make nothing of it.
        rename_i empty
        have none : results = [] := by
          rw [← holds]
          simp [Heap.contents, empty]
        rw [none, processAll_nil]
        exact .some ⟨swapped, holds.trans none⟩
      · rw [← holds]
        exact ih swapped

variable {buffers : Buffers}

theorem round_spec (grow : Nat → Nat) (ops : List StatelessOperator)
    (separate : buffers.Separate) (r : Record) :
    Reaction.Rel (fun after _ => after.Separate) (buffers.round grow ops r) (runWorker ops r) := by
  unfold round runWorker
  split
  · exact Reaction.rel_send [r] separate
  · obtain ⟨within, appended, frame⟩ := Slices.append_spec grow separate.holds.cleared [r]
    have kept := frame buffers.bufB separate.collects separate.apart.symm
    have inHand : (buffers.heap.append grow buffers.bufA.cleared [r]).1.contents
        (buffers.heap.append grow buffers.bufA.cleared [r]).2 = [r] := by
      rw [appended]
      simp [Heap.contents, Slice.cleared]
    have all := applyAll_spec grow ops (⟨within, kept.within, kept.apart.symm⟩ : Apart _ _ _)
    rw [inHand] at all
    dsimp only
    generalize processAll ops [r] = results at all
    generalize applyAll grow ops _ _ _ = runs at all
    cases all with
    | none => exact Reaction.rel_fail
    | @some results after done =>
      obtain ⟨heap, cur, alt⟩ := after
      obtain ⟨apart, rfl⟩ := done
      exact Reaction.rel_send _ apart

/-! ## The worker -/

/-- `runWorker`: it ends when its input is closed and has nothing to flush. -/
def worker (grow : Nat → Nat) (ops : List StatelessOperator) : Chain.Processor Buffers Record where
  react buffers _ r := buffers.round grow ops r
  flush buffers _ := .send [] buffers
  expires _ := false

variable {grow : Nat → Nat} {ops : List StatelessOperator}

theorem separate_start : start.Separate :=
  ⟨⟨by decide, by decide⟩, ⟨by decide, by decide⟩, by decide⟩

theorem worker_reacts (grow : Nat → Nat) (total : ∀ op ∈ ops, op.Total)
    (separate : buffers.Separate) (choice : Nat) (r : Record) : ∃ after,
    (worker grow ops).react buffers choice r = .send (replaced ops r) after ∧ after.Separate := by
  have rel := round_spec grow ops separate r
  rw [runWorker_total total] at rel
  obtain ⟨sends, next⟩ := rel
  simp only [worker]
  generalize buffers.round grow ops r = reaction at sends next
  obtain ⟨sent, goes⟩ := reaction
  cases next with
  | some kept =>
    obtain rfl : sent = replaced ops r := sends
    exact ⟨_, rfl, kept⟩

theorem worker_runs (total : ∀ op ∈ ops, op.Total) {after : Buffers} {input output : List Record}
    (separate : buffers.Separate) (runs : Chain.Runs (worker grow ops) buffers input output after) :
    output = input.flatMap (replaced ops) := by
  induction runs with
  | nil => rfl
  | cons choice reacts _ ih =>
    obtain ⟨next, sends, kept⟩ := worker_reacts grow total separate choice _
    cases sends.symm.trans reacts
    rw [ih kept, flatMap_cons]

theorem worker_output {μ : Type} {marker : Record → Bool}
    {pace : Chain.Pacing (worker grow ops) marker μ} (total : ∀ op ∈ ops, op.Total)
    {node : Chain.Node Buffers Record} {entered left : List Record}
    (passes : Chain.Passes pace start node entered left) : ∃ taken, entered = taken ++ node.queue ∧
      left ++ node.phase.pending = taken.flatMap (replaced ops) := by
  obtain ⟨-, ⟨taken, whole, runs, ends⟩, -⟩ := passes
  refine ⟨taken, whole, ?_⟩
  cases state : node.phase.state with
  | some p => exact worker_runs total separate_start (runs p state)
  | none =>
    obtain ⟨-, -, ran, q, choice, flushed, last, reads, -, flush, sent⟩ := ends state
    cases flush
    rw [sent, append_nil]
    exact worker_runs total separate_start reads

def unmarkedPacing (grow : Nat → Nat) (total : ∀ op ∈ ops, op.Total) :
    Chain.Pacing (worker grow ops) (fun _ => false) Unit where
  safe := Separate
  shadow _ := ()
  follow _ _ := ((), [])
  patient _ _ := rfl
  data buffers choice r separate _ := by
    obtain ⟨after, sends, kept⟩ := worker_reacts grow total separate choice r
    rw [sends]
    exact Reaction.meets_send (fun _ _ => rfl) ⟨kept, rfl⟩
  marked _ _ _ _ marked := by cases marked
  flushed _ _ _ := Reaction.meets_send (by simp) trivial

def markedPacing (grow : Nat → Nat) (total : ∀ op ∈ ops, op.Total) (plain : ∀ op ∈ ops, op.Plain) :
    Chain.Pacing (worker grow ops) Record.isMarker Unit where
  safe := Separate
  shadow _ := ()
  follow _ r := ((), [r])
  patient _ _ := rfl
  data buffers choice r separate data := by
    obtain ⟨after, sends, kept⟩ := worker_reacts grow total separate choice r
    rw [sends]
    refine Reaction.meets_send ?_ ⟨kept, rfl⟩
    rw [replaced, if_neg (by simp [data])]
    exact composed_data total plain data
  marked buffers choice r separate marker := by
    obtain ⟨after, sends, kept⟩ := worker_reacts grow total separate choice r
    rw [sends]
    exact ⟨by simp [Reaction.send, replaced, marker], after, rfl, kept, rfl⟩
  flushed _ _ _ := Reaction.meets_send (by simp) trivial

end Buffers

end Weibo
