import Weibo.Pipeline.ParallelStage
import Weibo.Pipeline.StatelessWorker

/-!
# The stateless stage

With one worker `StatelessStage.Run` is `runWorker` itself. With more of them a dispatcher sends
data round-robin over the workers and markers to all of them, and `alignedMerge` brings the outputs
together.
-/

namespace Weibo.Pipeline

open List Option Function Bool

open Chain (Node Act Emission Flow Passes)
open Transition (Reach Always Stuck Halts)
open StatelessOperator (composed replaced)
open Record (isMarker newWatermark)

/-! ## One worker -/

structure Serial where
  node : Node Buffers Record
  out : List Record
  outClosed : Bool
  fed : List Record

inductive SerialAction
  | feed (r : Record)
  | closeInput
  | move (a : Act)

namespace Serial

def start : Serial := ⟨.start Buffers.start, [], false, []⟩

/-- A move of `runWorker`; `out` is closed when it returns. -/
def move (grow : Nat → Nat) (ops : List StatelessOperator) (s : Serial) (a : Act) : Option Serial :=
  (s.node.act (Buffers.worker grow ops) a).map fun (node, emission) =>
    { s with
      node
      out := s.out ++ emission.sent
      outClosed := match emission with
        | .close => true
        | _ => s.outClosed }

def step (grow : Nat → Nat) (ops : List StatelessOperator) (s : Serial) :
    SerialAction → Option Serial
  | .feed r =>
    if s.node.closed then none
    else some { s with node := { s.node with queue := s.node.queue ++ [r] }, fed := s.fed ++ [r] }
  | .closeInput =>
    if s.node.closed then none else some { s with node := { s.node with closed := true } }
  | .move a => s.move grow ops a

variable {grow : Nat → Nat} {ops : List StatelessOperator} {total : ∀ op ∈ ops, op.Total}
  {s t : Serial}

/-- The worker answers what entered the stage, and `out` is closed when it has returned. -/
structure Inv (grow : Nat → Nat) (total : ∀ op ∈ ops, op.Total) (s : Serial) : Prop where
  passes : Passes (Buffers.unmarkedPacing grow total) Buffers.start s.node s.fed s.out
  closed : s.outClosed = true ↔ s.node.phase = .returned false

theorem inv_start : Inv grow total start :=
  ⟨Chain.passes_start Buffers.separate_start, by simp [start, Node.start]⟩

theorem inv_move (inv : Inv grow total s) {a : Act} (moves : s.move grow ops a = some t) :
    Inv grow total t := by
  obtain ⟨⟨node, emission⟩, acted, rfl⟩ := map_eq_some_iff.1 moves
  have acts := Chain.acts_of_act acted
  have passes := inv.passes.act acts
  refine ⟨passes, ?_⟩
  have closed := inv.closed
  cases acts with
  | take p choice r rest waits first => simpa [waits] using closed
  | push r rest after sending => simpa [sending] using closed
  | resume p sent => simpa [sent] using closed
  | stop failed sent =>
    cases failed with
    | true => exact absurd rfl passes.sound.1
    | false => simp
  | drain p choice waits empty ended | expire p choice waits due =>
    simpa [waits, Chain.Phase.flushing] using closed

theorem inv_step (inv : Inv grow total s) {a : SerialAction} (moves : s.step grow ops a = some t) :
    Inv grow total t := by
  cases a with
  | move a => exact inv_move inv moves
  | feed r =>
    obtain ⟨opened, same⟩ := ite_none_left_eq_some.1 moves
    cases same
    have room : s.node.receive (s.node.queue.length + 1) (.send r) =
        some { s.node with queue := s.node.queue ++ [r] } := by
      simp [Node.receive]
    exact ⟨(inv.passes.receive (fun _ _ => by simpa using opened) room).1, inv.closed⟩
  | closeInput =>
    obtain ⟨-, same⟩ := ite_none_left_eq_some.1 moves
    cases same
    have ends : s.node.receive 0 .close = some { s.node with closed := true } := rfl
    have passes := (inv.passes.receive (fun _ sent => by cases sent) ends).1
    exact ⟨by simpa [Emission.sent] using passes, inv.closed⟩

theorem halts (inv : Inv grow total s) : Halts (move grow ops) s := by
  have lowers : ∀ s a t, Inv grow total s → s.move grow ops a = some t →
      Transition.Below 2 (Chain.level [t.node]) (Chain.level [s.node]) := by
    intro s a t _ moves
    obtain ⟨⟨node, emission⟩, acted, rfl⟩ := map_eq_some_iff.1 moves
    rcases (Chain.acts_of_act acted).lowers with lower | ⟨same, lower⟩
    · exact ⟨0, by decide, by simp, lower⟩
    · refine ⟨1, by decide, fun j below => ?_, lower⟩
      obtain rfl : j = 0 := by omega
      exact same
  exact Transition.halts_of_lowers (Transition.below_wellFounded 2) (Inv grow total)
    (fun _ _ _ inv moves => inv_move inv moves) lowers inv

theorem rests (inv : Inv grow total s) (stuck : Stuck (move grow ops) s) : Chain.Rests s.node := by
  have idle : ∀ a, Chain.step (Buffers.worker grow ops) 1 [s.node] 0 a = none := by
    intro a
    simp [Chain.step, map_eq_none_iff.1 (stuck a)]
  exact inv.passes.rests Nat.one_pos (by simp) idle

end Serial

/-! ## Several workers -/

namespace StatelessStage

variable {n : Nat} [NeZero n]

/-- Where the dispatcher sends a record: markers to every worker, data to the `next` one. -/
def dispatch (next : Fin n) (r : Record) : Router n × Fin n :=
  if r.isMarker then (.send r (finRange n), next) else (.send r [next], next + 1)

/-- Whether `runWorker` has returned with an error. -/
def workerErr : List (Node Buffers Record) → Option Bool
  | [node] =>
    match node.phase with
    | .returned failed => some failed
    | _ => none
  | _ => some false

/-- `runParallel`. -/
def layout (grow : Nat → Nat) (ops : List StatelessOperator) (n : Nat) [NeZero n] :
    Layout Buffers (Fin n) n where
  proc := Buffers.worker grow ops
  route := dispatch
  errs := workerErr
  broadcasts _ r marker := by simp [dispatch, marker]
  directs next r data := ⟨r, next, by simp [dispatch, data], data⟩
  settles nodes returned := by
    unfold workerErr
    split
    · simp [returned]
    · rfl

def start (n : Nat) [NeZero n] : Parallel Buffers (Fin n) n :=
  Parallel.start (fun _ => [Buffers.start]) 0

def crew (grow : Nat → Nat) {ops : List StatelessOperator} (total : ∀ op ∈ ops, op.Total)
    (plain : ∀ op ∈ ops, op.Plain) (n : Nat) [NeZero n] :
    Crew (layout grow ops n) (Buffers.markedPacing grow total plain) where
  origins _ := [Buffers.start]
  cursor := 0
  shadows := [()]
  uniform _ := rfl
  filled _ := by simp
  safe _ _ mem := by
    rw [mem_singleton.1 mem]
    exact Buffers.separate_start

def assigned (ops : List StatelessOperator) : Fin n → List Record → List (Fin n × Record)
  | _, [] => []
  | next, r :: rest =>
    (replaced ops r).map (next, ·) ++ assigned ops (dispatch next r).2 rest

theorem assigned_snd (ops : List StatelessOperator) (next : Fin n) (records : List Record) :
    (assigned ops next records).map Prod.snd = records.flatMap (replaced ops) := by
  induction records generalizing next with
  | nil => rfl
  | cons r rest ih => simp [assigned, ih, comp_def]

variable {grow : Nat → Nat} {ops : List StatelessOperator}

theorem view_assigned (total : ∀ op ∈ ops, op.Total) (plain : ∀ op ∈ ops, op.Plain)
    (w next : Fin n) (records : List Record) : Tagged.view isMarker w (assigned ops next records) =
      ((layout grow ops n).routed w next records).flatMap (replaced ops) := by
  induction records generalizing next with
  | nil => rfl
  | cons r rest ih =>
    rw [assigned, Tagged.view_append, ih, Layout.routed, flatMap_append]
    congr 1
    cases kind : r.isMarker with
    | true => simp [layout, dispatch, kind, Router.owed, replaced]
    | false =>
      have data := StatelessOperator.composed_data total plain kind
      have made : replaced ops r = composed ops r := by simp [replaced, kind]
      by_cases same : next = w
      · subst same
        have all : Tagged.view isMarker next ((composed ops r).map (next, ·)) =
            composed ops r := by
          simp [Tagged.view, List.filter_map, comp_def]
        simp [layout, dispatch, kind, Router.owed, made, all]
      · have nothing : Tagged.view isMarker w ((composed ops r).map (next, ·)) = [] := by
          simp only [Tagged.view, List.filter_map, map_eq_nil_iff]
          exact filter_eq_nil_iff.2 fun b mem => by simp [data b mem, same]
        simp [layout, dispatch, kind, Router.owed, made, nothing, Ne.symm same]

theorem worker_rested (total : ∀ op ∈ ops, op.Total) (plain : ∀ op ∈ ops, op.Plain)
    {nodes : List (Node Buffers Record)} {entered left : List Record}
    (flow : Flow (Buffers.markedPacing grow total plain) [Buffers.start] nodes entered left)
    (rests : ∀ node ∈ nodes, Chain.Rests node) : left = entered.flatMap (replaced ops) := by
  match nodes, flow with
  | [node], ⟨between, passes, _, same⟩ =>
    subst same
    obtain ⟨taken, whole, sent⟩ := Buffers.worker_output total passes
    have rest := rests node (by simp)
    rw [rest.empty, append_nil] at whole
    rw [rest.pending, append_nil] at sent
    rw [sent, whole]

/-- The same markers, and between them the same records in some order. -/
def SameSegments (first second : List Record) : Prop :=
  first.filter isMarker = second.filter isMarker ∧
    Forall₂ Perm (segments first) (segments second)

/-- A stage with several workers that cannot move has sent what one worker would have sent, up
to the order between markers. -/
theorem sameSegments_of_stuck (total : ∀ op ∈ ops, op.Total) (plain : ∀ op ∈ ops, op.Plain)
    {s : Parallel Buffers (Fin n) n} (inv : Parallel.Inv (crew grow total plain n) s)
    (stuck : Stuck (Parallel.move (layout grow ops n)) s) :
    SameSegments (s.merge.out.map Prod.snd) (s.fed.flatMap (replaced ops)) := by
  obtain ⟨-, -, workers⟩ := inv.delivered stuck
  have views : ∀ w, Tagged.view isMarker w s.merge.out =
      Tagged.view isMarker w (assigned ops 0 s.fed) := by
    intro w
    obtain ⟨rests, flow⟩ := workers w
    rw [view_assigned total plain]
    exact worker_rested total plain flow rests
  rw [← assigned_snd ops (0 : Fin n)]
  refine ⟨?_, Tagged.forall₂_perm_of_views isMarker views⟩
  rw [← Tagged.filter_view isMarker 0, views 0, Tagged.filter_view]

end StatelessStage

/-- A stateless stage whose operators do not fail implements their composition. One worker sends, in
order, the input with every data record replaced by what the operators make of it. Several workers,
with operators that return no markers, send the same markers and between them the same records, up
to their order. No schedule moves forever or gets stuck on the way. -/
theorem statelessStage_composes (grow : Nat → Nat) (ops : List StatelessOperator)
    (total : ∀ op ∈ ops, op.Total) : (∀ s, Reach (Serial.step grow ops) Always Serial.start s →
      Halts (Serial.move grow ops) s ∧ s.out <+: s.fed.flatMap (replaced ops) ∧
      (Stuck (Serial.move grow ops) s → s.out = s.fed.flatMap (replaced ops) ∧
        (s.node.closed = true → s.outClosed = true))) ∧
    ((∀ op ∈ ops, op.Plain) → ∀ (n : Nat) [NeZero n] (s : Parallel Buffers (Fin n) n),
      Reach (Parallel.step (StatelessStage.layout grow ops n)) Always (StatelessStage.start n) s →
      Halts (Parallel.move (StatelessStage.layout grow ops n)) s ∧
      (Stuck (Parallel.move (StatelessStage.layout grow ops n)) s →
        StatelessStage.SameSegments (s.merge.out.map Prod.snd) (s.fed.flatMap (replaced ops)) ∧
        (s.inputClosed = true → s.merge.loop = .returned))) := by
  refine ⟨fun s reach => ?_, fun plain n _ s reach => ?_⟩
  · have inv : Serial.Inv grow total s :=
      reach.invariant Serial.inv_start fun _ _ _ inv _ moves => Serial.inv_step inv moves
    obtain ⟨taken, whole, sent⟩ := Buffers.worker_output total inv.passes
    refine ⟨Serial.halts inv, ?_, fun stuck => ?_⟩
    · rw [whole, flatMap_append, ← sent, append_assoc]
      exact prefix_append _ _
    · have rest := Serial.rests inv stuck
      rw [rest.empty, append_nil] at whole
      rw [rest.pending, append_nil] at sent
      exact ⟨by rw [sent, whole], fun ended => inv.closed.2 (rest.stopped ended)⟩
  · have inv := Parallel.inv_reach (StatelessStage.crew grow total plain n) reach
    exact ⟨inv.halts, fun stuck => ⟨StatelessStage.sameSegments_of_stuck total plain inv stuck,
      fun ended => ((inv.delivered stuck).1.returned ended).2.1⟩⟩

/-! ## Two workers -/

section Examples

def twice : StatelessOperator := .flatMap fun r => [r, r]

def threeRecords : List Record := [{ offset := 1 }, newWatermark 5, { offset := 2 }]

/-- Two workers send every record twice, on its side of the watermark. -/
theorem statelessStage_composes_twice :
    ∃ t, Reach (Parallel.move (StatelessStage.layout (fun _ => 0) [twice] 2)) Always
        { StatelessStage.start 2 with input := threeRecords, fed := threeRecords } t ∧
      StatelessStage.SameSegments (t.merge.out.map Prod.snd)
        [{ offset := 1 }, { offset := 1 }, newWatermark 5, { offset := 2 },
          { offset := 2 }] := by
  have total : ∀ op ∈ [twice], op.Total := fun op mem r => by
    rw [mem_singleton.1 mem]
    rfl
  have plain : ∀ op ∈ [twice], op.Plain := fun op mem r results data calls b inside => by
    rw [mem_singleton.1 mem] at calls
    cases calls
    have same : b = r := by simpa using inside
    rw [same, data]
  have several := (statelessStage_composes (fun _ => 0) [twice] total).2 plain 2
  have fed : Reach (Parallel.step (StatelessStage.layout (fun _ => 0) [twice] 2)) Always
      (StatelessStage.start 2)
      { StatelessStage.start 2 with input := threeRecords, fed := threeRecords } :=
    .tail (.feed { offset := 2 }) (.tail (.feed (newWatermark 5))
      (.tail (.feed { offset := 1 }) .refl trivial rfl) trivial rfl) trivial rfl
  obtain ⟨t, moved, stuck⟩ := (several _ fed).1.exists_stuck
  have same := ((several t (fed.trans (Parallel.reach_moves moved))).2 stuck).1
  rw [Parallel.fed_moves moved] at same
  exact ⟨t, moved, same⟩

def beats : StatelessOperator := .map fun r => newWatermark r.timestamp

def timed : Record := { timestamp := 5 }

def beatSchedule : List (KeyedAction 2) :=
  [.feed timed, .closeInput] ++
    ([.receive, .dispatch, .dispatch, .close,
      .worker 0 0 (.take 0), .worker 0 0 .push, .worker 0 0 .settle, .worker 0 0 (.drain 0),
      .worker 0 0 .settle, .finish 0, .worker 1 0 (.drain 0), .worker 1 0 .settle, .finish 1,
      .merge (.take 0), .merge (.forward 0), .merge .receive,
      .merge (.finish 1)] : List (KeyedMove 2)).map .move

/-- The dispatcher and the workers have returned and the merge waits for a second copy of a
marker. -/
def waitsForBeat (s : Parallel Buffers (Fin 2) 2) : Bool :=
  decide (s.router = .returned) && (s.chains 0).all Parallel.hasReturned &&
    (s.chains 1).all Parallel.hasReturned && s.merge.closed 0 && s.merge.closed 1 &&
    decide (s.merge.loop = .receive) && decide (s.merge.fanIn = []) &&
    decide (s.merge.fan 0 = .parked) && decide (s.merge.fan 1 = .done) && !s.merge.resume 0 &&
    decide (s.merge.out = []) && decide (s.fed = [timed]) && s.inputClosed

/-- An operator that returns a marker blocks a stage with two workers: the merge waits for a
copy of it from the other worker forever, where one worker would send it. -/
theorem operator_marker_blocks :
    ∃ s, Reach (Parallel.step (StatelessStage.layout (fun _ => 0) [beats] 2)) Always
        (StatelessStage.start 2) s ∧
          Stuck (Parallel.move (StatelessStage.layout (fun _ => 0) [beats] 2)) s ∧
      s.inputClosed = true ∧ s.merge.loop ≠ .returned ∧ s.merge.out = [] ∧
      s.fed.flatMap (replaced [beats]) = [newWatermark 5] := by
  obtain ⟨s, reach, holds⟩ := Reach.exists_of_run
    (Parallel.step (StatelessStage.layout (fun _ => 0) [beats] 2)) (StatelessStage.start 2)
    beatSchedule waitsForBeat (by decide +kernel)
  simp only [waitsForBeat, and_eq_true, decide_eq_true_eq, List.all_eq_true,
    not_eq_true'] at holds
  obtain ⟨⟨⟨⟨⟨⟨⟨⟨⟨⟨⟨⟨router, first⟩, second⟩, shut⟩, shut'⟩, loop⟩, fanIn⟩, fan⟩, fan'⟩, token⟩,
    out⟩,
    fed⟩, ended⟩ := holds
  have workers : ∀ w, ∀ node ∈ s.chains w, Parallel.hasReturned node = true :=
    Fin.forall_fin_two.2 ⟨first, second⟩
  have closed : ∀ w, s.merge.closed w = true := Fin.forall_fin_two.2 ⟨shut, shut'⟩
  have waits : ∀ w, s.merge.fan w = .done ∨ s.merge.fan w = .parked ∧ s.merge.resume w = false :=
    Fin.forall_fin_two.2 ⟨.inr ⟨fan, token⟩, .inl fan'⟩
  have merge : Stuck Merge.step s.merge :=
    Parallel.merge_waits loop fanIn waits ⟨0, by simp [fan]⟩
  refine ⟨s, reach, Parallel.stuck_of_returned router workers closed merge, ended, by simp [loop],
    out, ?_⟩
  rw [fed]
  rfl

end Examples

end Weibo.Pipeline
