import Weibo.Pipeline.ParallelStage

/-!
# Progress of the keyed stage

Steady operators derive their markers from the markers they receive alone, so the workers of a
keyed stage keep to the markers and the stage stops only when everything that entered it was
delivered. With an idle timeout it may stop before.
-/

namespace Weibo.Pipeline

open List

open Chain (Node Act Emission Flow)
open Transition (Reach Always Stuck)
open Marked (marks)
open Record (barrierID isMarker)

section Stage

variable {n : Nat} [NeZero n] [TimeText] [JoinText]

def chainPulses (pulses : List Pulse) : List Pulse :=
  (if pulses.isEmpty then [] else .pass :: pulses.flatMap fun pulse => [pulse, .pass, .pass]) ++
    [.pass]

theorem shadow_workerChain (ops : List Operator) :
    (workerChain ops).map goroutinesPacing.shadow = chainPulses (ops.map Operator.pulse) := by
  cases ops with
  | nil => rfl
  | cons op ops =>
    have rest : ((op :: ops).flatMap fun op => [Goroutine.operator op, .copy, .copy]).map
        goroutinesPacing.shadow =
          ((op :: ops).map Operator.pulse).flatMap fun pulse => [pulse, .pass, .pass] := by
      rw [map_flatMap, flatMap_map]
      rfl
    simp only [workerChain, chainPulses, isEmpty_cons, map_append, map_cons,
      Bool.false_eq_true, if_false] at rest ⊢
    rw [rest]
    rfl

omit [TimeText] [JoinText] in
theorem mem_workerChain {ops : List Operator} {op : Operator}
    (mem : Goroutine.operator op ∈ workerChain ops) : op ∈ ops := by
  simp only [workerChain, mem_append, mem_singleton, reduceCtorEq, or_false] at mem
  split at mem
  · cases mem
  · simp only [mem_cons, reduceCtorEq, mem_flatMap, Goroutine.operator.injEq,
      not_mem_nil, or_false, false_or] at mem
    obtain ⟨other, inside, rfl⟩ := mem
    exact inside

theorem safe_workerChain {ops : List Operator} (steady : ∀ op ∈ ops, op.Steady) :
    ∀ g ∈ workerChain ops, goroutinesPacing.safe g := by
  intro g mem
  cases g with
  | copy => trivial
  | operator op => exact steady op (mem_workerChain mem)

/-- The operator chains of the workers: clones of one chain, fresh or restored from one
checkpoint, so that they agree on the markers seen. -/
structure Workers (n : Nat) where
  chain : Fin n → List Operator
  pulses : List Pulse
  uniform : ∀ w, (chain w).map Operator.pulse = pulses

/-- `NewKeyedStage`: one clone of the operator chain per worker. -/
def Workers.clones (n : Nat) (ops : List Operator) : Workers n :=
  ⟨fun _ => ops.map Operator.clone, (ops.map Operator.clone).map Operator.pulse, fun _ => rfl⟩

omit [NeZero n] in
theorem Workers.shadows (workers : Workers n) (w : Fin n) :
    (workerChain (workers.chain w)).map goroutinesPacing.shadow = chainPulses workers.pulses := by
  rw [shadow_workerChain, workers.uniform w]

namespace KeyedStage

omit [NeZero n] [TimeText] [JoinText] in
theorem opErrs_returned {nodes : List (Node Goroutine Record)}
    (returned : ∀ node ∈ nodes, node.phase = .returned false) : opErrs nodes = some false := by
  induction nodes using opErrs.induct <;> simp_all [opErrs]

def layout (keyBy : KeyByOperator) : Layout Goroutine Unit n where
  proc := goroutines
  route _ r := (route keyBy r, ())
  errs nodes := opErrs nodes.tail
  broadcasts _ r marker := by simp [route, marker]
  directs _ r data :=
    ⟨r.withKey (keyBy.keySelector r), routeKey n (keyBy.keySelector r), by simp [route, data], data⟩
  settles _ returned := opErrs_returned fun node mem => returned node (mem_of_mem_tail mem)

def parallel (s : KeyedStage n) : Parallel Goroutine Unit n where
  input := s.input
  inputClosed := s.inputClosed
  router := s.router
  cursor := ()
  chains := s.chains
  merge := s.merge
  cancelled := s.cancelled
  fed := s.fed

theorem image_move (keyBy : KeyByOperator) :
    Transition.Image (parallel (n := n)) (move keyBy) (Parallel.move (layout keyBy)) := by
  rintro ⟨input, inputClosed, router, chains, merge, cancelled, fed⟩ a
  cases cancelled with
  | true => cases a <;> rfl
  | false =>
    cases a with simp only [move, Parallel.move, parallel, layout]
    | receive => cases router <;> cases input <;> rfl
    | dispatch =>
      cases router with
      | send r targets =>
        cases targets with
        | nil => rfl
        | cons w rest => exact Option.map_map ..
      | receive | returned => rfl
    | close => cases router <;> cases input <;> cases inputClosed <;> rfl
    | worker w i act =>
      cases Chain.step goroutines internalBuf (chains w) i act with
      | none => rfl
      | some moved => exact Option.map_map ..
    | finish w =>
      cases merge.closed w with
      | true => rfl
      | false =>
        cases (chains w).getLast?.map Node.phase with
        | none => rfl
        | some phase =>
          cases phase with
          | serve p | emit pending after => rfl
          | returned _ =>
            cases opErrs (chains w).tail with
            | none => rfl
            | some failed => cases failed <;> rfl
    | merge a => exact Option.map_map ..

theorem image_step (keyBy : KeyByOperator) :
    Transition.Image (parallel (n := n)) (step keyBy) (Parallel.step (layout keyBy)) := by
  rintro ⟨input, inputClosed, router, chains, merge, cancelled, fed⟩ a
  cases a with
  | feed r | closeInput => cases inputClosed <;> rfl
  | move m => exact image_move keyBy _ m

theorem routed_layout (keyBy : KeyByOperator) (w : Fin n) (records : List Record) :
    (layout keyBy).routed w () records = routed keyBy w records := by
  induction records with
  | nil => rfl
  | cons r rest ih =>
    rw [Layout.routed, routed_cons, ← ih]
    rfl

end KeyedStage

def Workers.crew (keyBy : KeyByOperator) (workers : Workers n)
    (steady : ∀ w, ∀ op ∈ workers.chain w, op.Steady) :
    Crew (KeyedStage.layout (n := n) keyBy) goroutinesPacing where
  origins w := workerChain (workers.chain w)
  cursor := ()
  shadows := chainPulses workers.pulses
  uniform := workers.shadows
  filled w := by simp [workerChain]
  safe w := safe_workerChain (steady w)

namespace KeyedStage

/-- Every run of a keyed stage with steady operators is explained by what entered and left its
workers. -/
theorem parallel_inv (keyBy : KeyByOperator) (workers : Workers n)
    (steady : ∀ w, ∀ op ∈ workers.chain w, op.Steady) {s : KeyedStage n}
    (reach : Reach (step keyBy) Always (start workers.chain) s) :
    Parallel.Inv (workers.crew keyBy steady) s.parallel :=
  Parallel.inv_reach (workers.crew keyBy steady) ((image_step keyBy).reach reach)

/-- Nothing that entered the stage is still on its way, and after the end of the input every
goroutine has returned. -/
structure Delivered (s : KeyedStage n) : Prop where
  input : s.input = []
  router : s.router = .receive ∨ s.router = .returned
  workers : ∀ w, ∀ node ∈ s.chains w, node.queue = [] ∧ node.phase.pending = []
  outputs : ∀ w, s.merge.workerOuts w = [] ∧ Merge.held (s.merge.fan w) = []
  fanIn : s.merge.fanIn = []
  merge : (s.merge.loop = .receive ∧ s.merge.arrived = 0) ∨ s.merge.loop = .returned
  returned : s.inputClosed = true → s.router = .returned ∧ s.merge.loop = .returned ∧
    ∀ w, s.merge.closed w = true

omit [NeZero n] [TimeText] [JoinText] in
theorem delivered_of_parallel {s : KeyedStage n} (delivered : s.parallel.Delivered) : Delivered s :=
  ⟨delivered.input, delivered.router, delivered.workers, delivered.outputs, delivered.fanIn,
    delivered.merge, delivered.returned⟩

end KeyedStage

theorem asked_barriers (pulses : List Pulse) (markers : List Record) :
    marks barrierID (Chain.asked goroutinesPacing pulses markers) = marks barrierID markers := by
  induction pulses generalizing markers with
  | nil => rfl
  | cons pulse pulses ih =>
    rw [Chain.asked, ih]
    exact Pulse.follow_forwards.marks_outputs pulse markers

omit [TimeText] [JoinText] in
theorem barriers_filter (records : List Record) : marks barrierID (records.filter isMarker) =
      marks barrierID records := by
  rw [marks, marks, filterMap_filter]
  refine filterMap_congr fun r _ => ?_
  cases marker : r.isMarker with
  | true => rfl
  | false => simp [Record.barrierID_of_data marker]

/-- In every reachable state of a keyed stage without idle timers whose user functions neither fail
nor return markers: when no goroutine can move, everything that entered was delivered, and after the
end of the input all have returned; they can always get there without further input; and every
barrier was sent downstream once, in order. -/
theorem keyedStage_never_stuck (keyBy : KeyByOperator) (workers : Workers n)
    (steady : ∀ w, ∀ op ∈ workers.chain w, op.Steady) (s : KeyedStage n)
    (reach : Reach (KeyedStage.step keyBy) Always (KeyedStage.start workers.chain) s) :
    (Stuck (KeyedStage.move keyBy) s → s.Delivered) ∧
    ∃ t, Reach (KeyedStage.move keyBy) Always s t ∧ t.Delivered ∧
      marks barrierID (t.merge.out.map Prod.snd) =
        marks barrierID s.fed := by
  have inv := KeyedStage.parallel_inv keyBy workers steady reach
  refine ⟨fun stuck => KeyedStage.delivered_of_parallel
    (inv.delivered ((KeyedStage.image_move keyBy).stuck_iff.2 stuck)).1, ?_⟩
  obtain ⟨t, moved, delivered, markers⟩ := inv.exists_delivered
  obtain ⟨t, runs, rfl⟩ := (KeyedStage.image_move keyBy).exists_reach moved
  refine ⟨t, runs, KeyedStage.delivered_of_parallel delivered, ?_⟩
  have sent : (t.merge.out.map Prod.snd).filter isMarker =
      Chain.asked goroutinesPacing (chainPulses workers.pulses) (s.fed.filter isMarker) :=
    markers
  rw [← barriers_filter, sent, asked_barriers, barriers_filter]

end Stage

/-! ## Two workers with a window -/

section Examples

attribute [local instance] TimeText.blank JoinText.blank

def minuteWindow (idleTimeout : Duration) : Operator :=
  .window { assigner := .tumbling ⟨60, 0, by decide⟩, idleTimeout := idleTimeout }

def firstBarrier : Record := Record.newBarrier ⟨1, 1, .periodic⟩

def byKey : KeyByOperator := ⟨Record.key⟩

/-- A barrier sent to two workers with a window can be emitted. -/
theorem keyedStage_emits_barrier :
    ∃ t, Reach (KeyedStage.move byKey) Always
        { KeyedStage.start (Workers.clones 2 [minuteWindow 0]).chain with
          input := [firstBarrier]
          fed := [firstBarrier] } t ∧ t.Delivered ∧
      marks barrierID (t.merge.out.map Prod.snd) = [⟨1, 1, .periodic⟩] :=
  (keyedStage_never_stuck byKey (Workers.clones 2 [minuteWindow 0])
    (by
      intro w op mem
      obtain rfl : op = (minuteWindow 0).clone := by simpa [Workers.clones] using mem
      exact ⟨by decide, fun _ none => by cases none⟩) _
    (.tail (.feed firstBarrier) .refl trivial rfl)).2

def copies (w : Fin 2) (position : Nat) : List (KeyedAction 2) :=
  [Act.take 0, .push, .settle, .drain 0, .settle].map fun act => .move (.worker w position act)

def ends (w : Fin 2) (position : Nat) : List (KeyedAction 2) :=
  [Act.drain 0, .settle].map fun act => .move (.worker w position act)

def idleSchedule : List (KeyedAction 2) :=
  [.move (.worker 0 1 (.expire 0)), .move (.worker 0 1 .settle)] ++ ends 0 2 ++ ends 0 3 ++
    ends 0 4 ++ [.move (.finish 0), .move (.merge (.finish 0)), .feed firstBarrier, .closeInput,
      .move .receive, .move .dispatch, .move .dispatch, .move .dispatch, .move .close] ++
    copies 0 0 ++ copies 1 0 ++ copies 1 1 ++ copies 1 2 ++ copies 1 3 ++ copies 1 4 ++
    [.move (.finish 1), .move (.merge (.take 1)), .move (.merge (.forward 1)),
      .move (.merge .receive)]

/-- The router and the workers have returned and the merge waits for a second copy of a
marker. -/
def waitsForCopy (s : KeyedStage 2) : Bool :=
  decide (s.router = .returned) && (s.chains 0).all Parallel.hasReturned &&
    (s.chains 1).all Parallel.hasReturned &&
    s.merge.closed 0 && s.merge.closed 1 && decide (s.merge.loop = .receive) &&
    decide (s.merge.fanIn = []) && decide (s.merge.fan 0 = .done) &&
    decide (s.merge.fan 1 = .parked) && !s.merge.resume 1 && decide (s.merge.out = []) &&
    decide (s.fed = [firstBarrier]) && decide (s.merge.arrived = 1)

/-- With an idle timeout the window of one of two workers may stop before a barrier arrives:
the merge then waits for its copy forever. The input has ended, every other goroutine has
returned, and the barrier was not sent. -/
theorem idle_window_blocks_barrier : ∃ s, Reach (KeyedStage.step byKey) Always
        (KeyedStage.start (Workers.clones 2 [minuteWindow 5]).chain) s ∧
      Stuck (KeyedStage.move byKey) s ∧ ¬s.Delivered ∧ s.fed = [firstBarrier] ∧
        s.merge.out = [] := by
  obtain ⟨s, reach, holds⟩ := Reach.exists_of_run (KeyedStage.step byKey)
    (KeyedStage.start (Workers.clones 2 [minuteWindow 5]).chain) idleSchedule waitsForCopy
    (by decide +kernel)
  simp only [waitsForCopy, Bool.and_eq_true, decide_eq_true_eq, all_eq_true,
    Bool.not_eq_true'] at holds
  obtain ⟨⟨⟨⟨⟨⟨⟨⟨⟨⟨⟨⟨router, first⟩, second⟩, shut⟩, shut'⟩, loop⟩, fanIn⟩, fan⟩, fan'⟩, token⟩,
    out⟩,
    fed⟩, arrived⟩ := holds
  have workers : ∀ w, ∀ node ∈ s.chains w, Parallel.hasReturned node = true :=
    Fin.forall_fin_two.2 ⟨first, second⟩
  have closed : ∀ w, s.merge.closed w = true := Fin.forall_fin_two.2 ⟨shut, shut'⟩
  have waits : ∀ w, s.merge.fan w = .done ∨ s.merge.fan w = .parked ∧ s.merge.resume w = false :=
    Fin.forall_fin_two.2 ⟨.inl fan, .inr ⟨fan', token⟩⟩
  have merge : Stuck Merge.step s.merge :=
    Parallel.merge_waits loop fanIn waits ⟨1, by simp [fan']⟩
  refine ⟨s, reach, (KeyedStage.image_move byKey).stuck_iff.1
    (Parallel.stuck_of_returned router workers closed merge), fun delivered => ?_, fed, out⟩
  rcases delivered.merge with waits | returned
  · simp [arrived] at waits
  · simp [loop] at returned

end Examples

end Weibo.Pipeline
