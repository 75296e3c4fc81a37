import Weibo.Pipeline.KeyedProgress
import Weibo.Pipeline.StatelessStage

/-!
# Complete runs of a plan

Each stage of a plan splits its input over its workers, runs a chain of tasks per worker and merges
their outputs, in an interleaving that keeps the order of each worker and of the markers. A stage
whose goroutines have all returned is such a run.
-/

namespace Weibo.Pipeline

open List Option Function Reaction

open Chain (Act Completes Ends Runs unmarked)
open Record (isCheckpoint barrierID_of_data isMarker isMarker_of_barrierID)
open Transition (Reach Always)
open StatelessOperator (processAll_data replaced runWorker runWorker_total)
open StatelessStage (crew dispatch layout)

inductive Task
  | stateless (ops : List StatelessOperator)
  | stateful (op : Operator)

section Plan

variable [TimeText] [JoinText]

def tasks : Chain.Processor Task Record where
  react
    | .stateless ops, _, r => (runWorker ops r).map .stateless
    | .stateful op, choice, r => (op.process choice r).map .stateful
  flush
    | .stateless ops, _ => .send [] (.stateless ops)
    | .stateful op, choice => (op.finish choice).map .stateful
  expires
    | .stateless _ => false
    | .stateful op => op.timed

variable {choice : Nat} {r : Record} {sends : List Record}

theorem react_window {op after : WindowOperator}
    (reacts : op.process choice r = .send sends after) : tasks.react
    (.stateful (.window op)) choice r = .send sends (.stateful (.window after)) := by
  simp [tasks, Operator.process, reacts, Reaction.map, Reaction.send]

theorem flush_window {op after : WindowOperator}
    (flushes : op.flushRemaining choice = .send sends after) : tasks.flush
    (.stateful (.window op)) choice = .send sends (.stateful (.window after)) := by
  simp [tasks, Operator.finish, flushes, Reaction.map, Reaction.send]

namespace Task

def Steady : Task → Prop
  | .stateless ops => ∀ op ∈ ops, op.Plain
  | .stateful op => op.Steady

def Idle : Task → Prop
  | .stateful (.window op) => op.recState.keys = []
  | _ => True

end Task

theorem process_barrier (op : Operator) (choice : Nat) (barrier : isCheckpoint r = true) :
    op.process choice r = .send [r] op := by
  have kinds : r.isWatermark = false ∧ r.isBarrier = true := by
    cases watermark : r.isWatermark <;> cases kind : r.isBarrier <;>
      simp_all [isCheckpoint, Record.barrierID]
  cases op with
  | window op =>
    simp [Operator.process, WindowOperator.process, kinds, Reaction.map, Reaction.send]
  | reduce op =>
    simp [Operator.process, ReduceOperator.process, kinds, Reaction.map, Reaction.send]
  | keyedProcess op =>
    simp [Operator.process, KeyedProcessOperator.process, kinds, Reaction.map, Reaction.send]
  | intervalJoin op =>
    simp [Operator.process, IntervalJoinOperator.process, kinds, Reaction.map, Reaction.send]

variable {op : Operator}

theorem process_unmarked {after : Operator} (steady : op.Steady) (plain : isCheckpoint r = false)
    (reacts : op.process choice r = .send sends after) :
    after.Steady ∧ ∀ b ∈ sends, isCheckpoint b = false := by
  cases kind : r.isMarker with
  | false =>
    obtain ⟨data, next, goes, kept, -⟩ := Operator.process_data steady choice kind
    rw [reacts] at data goes
    obtain rfl : after = next := some.inj goes
    exact ⟨kept, fun b mem => by simp [isCheckpoint, barrierID_of_data (data b mem)]⟩
  | true =>
    obtain ⟨markers, next, goes, kept, -⟩ := Operator.process_marker steady choice kind
    rw [reacts] at markers goes
    obtain rfl : after = next := some.inj goes
    refine ⟨kept, fun b mem => ?_⟩
    cases marker : b.isMarker with
    | false => simp [isCheckpoint, barrierID_of_data marker]
    | true =>
      have unmarked := Pulse.follow_forwards op.pulse r
      simp only [isCheckpoint, isSome_eq_false_iff, isNone_iff_eq_none] at plain
      simp only [plain] at unmarked
      have sent : b ∈ (op.pulse.follow r).2 := by
        rw [← markers]
        exact mem_filter.2 ⟨mem, marker⟩
      simp [isCheckpoint, unmarked b sent]

def tasksTransparent : Chain.Transparent tasks isCheckpoint where
  safe := Task.Steady
  passes
    | .stateless ops, _, r, _, barrier => by
      obtain ⟨id, carried⟩ := isSome_iff_exists.1 barrier
      have marker := isMarker_of_barrierID carried
      simp [tasks, runWorker, marker, Reaction.map, Reaction.send]
    | .stateful op, choice, r, _, barrier => by
      simp [tasks, process_barrier op choice barrier, Reaction.map, Reaction.send]
  plain
    | .stateless ops, _, r, sends, q, steady, plain, reacts => by
      simp only [tasks, runWorker] at reacts
      split at reacts
      · cases reacts
        exact ⟨steady, by simpa [send] using plain⟩
      next kind =>
        split at reacts
        next results calls =>
          cases reacts
          have data := processAll_data steady (by simpa using kind) calls
          exact ⟨steady, fun b mem => by simp [isCheckpoint, barrierID_of_data (data b mem)]⟩
        · cases reacts
    | .stateful op, choice, r, sends, q, steady, plain, reacts => by
      obtain ⟨after, goes, same⟩ := of_map_eq_send reacts
      subst same
      exact process_unmarked steady plain goes
  flushed
    | .stateless ops, _, sends, q, _, reacts => by
      cases reacts
      simp
    | .stateful op, choice, sends, q, steady, reacts => by
      obtain ⟨after, goes, -⟩ := of_map_eq_send reacts
      have data := (Operator.finish_data steady choice).sends
      rw [goes] at data
      exact fun b mem => by simp [isCheckpoint, barrierID_of_data (data b mem)]

theorem Task.Idle.silent {task after : Task} (idle : task.Idle) {flushed : List Record}
    (flush : tasks.flush task choice = .send flushed after) : flushed = [] := by
  cases task with
  | stateless ops =>
    cases flush
    rfl
  | stateful op =>
    obtain ⟨later, goes, -⟩ := of_map_eq_send flush
    cases op with
    | window op =>
      have none : op.recState.keys = [] := idle
      have nothing : op.flushRemaining choice = .send [] op := by
        simp [WindowOperator.flushRemaining, none, forEach]
      simp only [Operator.finish, nothing] at goes
      cases goes
      rfl
    | reduce op | keyedProcess op | intervalJoin op =>
      cases goes
      rfl

/-! ## Stages -/

structure Stage where
  workers : Nat
  positive : 0 < workers
  owed : (count : Nat) → Record → Fin workers → List Record
  chain : Fin workers → List Task
  broadcasts : ∀ count r w, r.isMarker = true → owed count r w = [r]
  keeps : ∀ count r w, r.isMarker = false → ∀ q ∈ owed count r w, q.isMarker = false

namespace Stage

/-- `StatelessStage`: markers are broadcast, data goes round-robin over the workers. -/
def stateless (ops : List StatelessOperator) (parallelism : Nat) : Stage where
  workers := max parallelism 1
  positive := by omega
  owed count r w := if r.isMarker ∨ count % max parallelism 1 = w then [r] else []
  chain _ := [.stateless ops]
  broadcasts count r w marker := by simp [marker]
  keeps count r w data q mem := by
    split at mem
    · exact (mem_singleton.1 mem) ▸ data
    · cases mem

/-- `KeyedStage` with the operators of its workers. -/
def keyed (keyBy : KeyByOperator) (n : Nat) [NeZero n] (workers : Fin n → List Operator) :
    Stage where
  workers := n
  positive := NeZero.pos n
  owed _ r w := (KeyedStage.route keyBy r).owed w
  chain w := (workers w).map .stateful
  broadcasts _ r w marker := by simp [KeyedStage.route, marker, Router.owed]
  keeps _ r w data q mem := by
    simp only [KeyedStage.route, data, Router.owed, Bool.false_eq_true, if_false] at mem
    split at mem
    · rw [mem_singleton.1 mem]
      exact data
    · cases mem

/-- `ChannelStage`: a stateful operator without a KeyBy. -/
def channel (op : Operator) : Stage where
  workers := 1
  positive := Nat.one_pos
  owed _ r _ := [r]
  chain _ := [.stateful op]
  broadcasts _ _ _ _ := rfl
  keeps _ _ _ data _ mem := (mem_singleton.1 mem) ▸ data

/-- What a worker gets of a stream that `count` data records came before. -/
def dispatched (stage : Stage) (w : Fin stage.workers) : (count : Nat) → List Record → List Record
  | _, [] => []
  | count, r :: rest =>
    stage.owed count r w ++ stage.dispatched w (if r.isMarker then count else count + 1) rest

/-- A complete run of a stage: every worker reads what it gets to the end, and the output
interleaves the worker outputs; `ok` is what holds of the tasks when their input ends. -/
def Ends (ok : Task → Prop) (stage : Stage) (input output : List Record) : Prop :=
  ∃ merged : List (Fin stage.workers × Record), output = merged.map Prod.snd ∧
    ∀ w, Completes tasks ok (stage.chain w) (stage.dispatched w 0 input)
      (Tagged.view isMarker w merged)

def Steady (stage : Stage) : Prop := ∀ w, ∀ task ∈ stage.chain w, task.Steady

variable {ok : Task → Prop} {stage : Stage} {input output : List Record}

omit [TimeText] [JoinText] in
theorem dispatched_erase (stage : Stage) (w : Fin stage.workers) (count : Nat)
    (input : List Record) :
    stage.dispatched w count (unmarked isCheckpoint input) =
      unmarked isCheckpoint (stage.dispatched w count input) := by
  induction input generalizing count with
  | nil => rfl
  | cons r rest ih =>
    rw [dispatched, Chain.unmarked_append, ← ih]
    cases kind : isCheckpoint r with
    | true =>
      obtain ⟨id, carried⟩ := isSome_iff_exists.1 kind
      have marker := isMarker_of_barrierID carried
      simp [stage.broadcasts count r w marker, unmarked, kind, marker]
    | false =>
      have kept : unmarked isCheckpoint (stage.owed count r w) = stage.owed count r w := by
        refine Chain.unmarked_eq fun q mem => ?_
        cases marker : r.isMarker with
        | true =>
          rw [stage.broadcasts count r w marker] at mem
          exact (mem_singleton.1 mem) ▸ kind
        | false =>
          simp [isCheckpoint, barrierID_of_data (stage.keeps count r w marker q mem)]
      rw [kept]
      simp [unmarked, kind, dispatched]

omit [TimeText] [JoinText] in
theorem dispatched_last (stage : Stage) (w : Fin stage.workers) (count : Nat) (input : List Record)
    {m : Record} (marker : m.isMarker = true) :
    ∃ front, stage.dispatched w count (input ++ [m]) = front ++ [m] := by
  induction input generalizing count with
  | nil => exact ⟨[], by simp [dispatched, stage.broadcasts count m w marker]⟩
  | cons r rest ih =>
    obtain ⟨front, last⟩ := ih (if r.isMarker then count else count + 1)
    exact ⟨stage.owed count r w ++ front, by rw [cons_append, dispatched, last, append_assoc]⟩

omit [TimeText] [JoinText] in
theorem dispatched_checkpoints (stage : Stage) (w : Fin stage.workers) (count : Nat)
    (input : List Record) :
    (stage.dispatched w count input).filter isCheckpoint = input.filter isCheckpoint := by
  induction input generalizing count with
  | nil => rfl
  | cons r rest ih =>
    rw [dispatched, filter_append, ih]
    cases marker : r.isMarker with
    | true =>
      rw [stage.broadcasts count r w marker, ← filter_append]
      rfl
    | false =>
      have none : (stage.owed count r w).filter isCheckpoint = [] := by
        refine filter_eq_nil_iff.2 fun q mem => ?_
        simp [isCheckpoint, barrierID_of_data (stage.keeps count r w marker q mem)]
      have plain : isCheckpoint r = false := by
        simp [isCheckpoint, barrierID_of_data marker]
      simp [none, plain]

theorem Ends.checkpoints (steady : stage.Steady) (ends : stage.Ends ok input output) :
    output.filter isCheckpoint = input.filter isCheckpoint := by
  obtain ⟨merged, rfl, workers⟩ := ends
  let w : Fin stage.workers := ⟨0, stage.positive⟩
  have sent := (workers w).filter_marked tasksTransparent (steady w)
  rw [dispatched_checkpoints] at sent
  have markers : ∀ records : List Record,
      (records.filter isMarker).filter isCheckpoint = records.filter isCheckpoint := by
    intro records
    rw [List.filter_filter]
    refine filter_congr fun r _ => ?_
    cases kind : isCheckpoint r with
    | false => rfl
    | true =>
      obtain ⟨id, carried⟩ := isSome_iff_exists.1 kind
      simp [isMarker_of_barrierID carried]
  rw [← sent, ← markers (merged.map Prod.snd), ← Tagged.filter_view isMarker w, markers]

theorem Ends.erase (steady : stage.Steady) (ends : stage.Ends ok input output) :
    stage.Ends ok (unmarked isCheckpoint input) (unmarked isCheckpoint output) := by
  obtain ⟨merged, rfl, workers⟩ := ends
  refine ⟨merged.filter fun x => !isCheckpoint x.2, ?_, fun w => ?_⟩
  · rw [unmarked, List.filter_map]
    rfl
  · have view : Tagged.view isMarker w (merged.filter fun x => !isCheckpoint x.2) =
        unmarked isCheckpoint (Tagged.view isMarker w merged) := by
      rw [Tagged.view, unmarked, Tagged.view, List.filter_map, filter_comm]
      rfl
    rw [dispatched_erase, view]
    exact (workers w).erase tasksTransparent (steady w)

theorem Ends.last (steady : stage.Steady) {m : Record} (barrier : isCheckpoint m = true)
    (ends : stage.Ends Task.Idle (input ++ [m]) output) : ∃ front, output = front ++ [m] := by
  obtain ⟨merged, rfl, workers⟩ := ends
  obtain ⟨id, carried⟩ := isSome_iff_exists.1 barrier
  have marker := isMarker_of_barrierID carried
  have views : ∀ w, ∃ front, Tagged.view isMarker w merged = front ++ [m] := by
    intro w
    have run := workers w
    obtain ⟨front, split⟩ := stage.dispatched_last w 0 input marker
    rw [split] at run
    exact run.last tasksTransparent (fun _ _ _ _ idle flush => idle.silent flush) (steady w) barrier
  -- the last element of the interleaving is the last one its own worker sent
  rcases eq_nil_or_concat merged with rfl | ⟨front, ⟨v, r⟩, rfl⟩
  · obtain ⟨front, split⟩ := views ⟨0, stage.positive⟩
    simp at split
  · obtain ⟨sent, split⟩ := views v
    rw [concat_eq_append, Tagged.view_append] at split
    have own : Tagged.view isMarker v [(v, r)] = [r] := by simp
    rw [own] at split
    obtain ⟨-, same⟩ := append_inj' split rfl
    obtain rfl : r = m := by simpa using same
    exact ⟨front.map Prod.snd, by simp⟩

omit [TimeText] [JoinText] in
theorem dispatched_channel (op : Operator) (w : Fin 1) (count : Nat) (input : List Record) :
    (channel op).dispatched w count input = input := by
  induction input generalizing count with
  | nil => rfl
  | cons r rest ih => exact congrArg (r :: ·) (ih _)

theorem channel_ends {op : Operator} :
    (channel op).Ends ok input output ↔ Chain.Ends tasks ok (.stateful op) input output := by
  have whole : ∀ (w : Fin 1) (merged : List (Fin 1 × Record)),
      Tagged.view isMarker w merged = merged.map Prod.snd := by
    intro w merged
    have all : merged.filter (fun x => x.2.isMarker || decide (x.1 = w)) = merged :=
      filter_eq_self.2 fun x _ => by simp [Subsingleton.elim x.1 w]
    rw [Tagged.view, all]
  constructor
  · rintro ⟨merged, rfl, workers⟩
    obtain ⟨between, ends, same⟩ := workers (0 : Fin 1)
    have all := same.symm.trans (whole 0 merged)
    rw [dispatched_channel] at ends
    exact all ▸ ends
  · intro ends
    have tagged : (output.map fun r => ((0 : Fin 1), r)).map Prod.snd = output := by
      rw [List.map_map]
      exact List.map_id _
    refine ⟨output.map fun r => ((0 : Fin 1), r), tagged.symm, fun (w : Fin 1) => ?_⟩
    refine ⟨output, ?_, (whole w _).trans tagged⟩
    rw [dispatched_channel]
    exact ends

theorem Ends.mono {mem' : Task → Prop} (weaker : ∀ task, ok task → mem' task)
    (ends : stage.Ends ok input output) : stage.Ends mem' input output := by
  obtain ⟨merged, same, workers⟩ := ends
  exact ⟨merged, same, fun w => (workers w).mono weaker⟩

end Stage

def PlanEnds (ok : Task → Prop) : List Stage → List Record → List Record → Prop
  | [], input, output => output = input
  | stage :: stages, input, output =>
    ∃ between, stage.Ends ok input between ∧ PlanEnds ok stages between output

variable {ok : Task → Prop} {stages : List Stage} {input output : List Record}

theorem PlanEnds.checkpoints (steady : ∀ stage ∈ stages, stage.Steady)
    (ends : PlanEnds ok stages input output) :
    output.filter isCheckpoint = input.filter isCheckpoint := by
  induction stages generalizing input with
  | nil => rw [show output = input from ends]
  | cons stage stages ih =>
    obtain ⟨between, first, rest⟩ := ends
    rw [ih (fun stage mem => steady stage (.tail _ mem)) rest,
      first.checkpoints (steady stage mem_cons_self)]

theorem PlanEnds.erase (steady : ∀ stage ∈ stages, stage.Steady)
    (ends : PlanEnds ok stages input output) : PlanEnds ok stages (unmarked isCheckpoint input)
    (unmarked isCheckpoint output) := by
  induction stages generalizing input with
  | nil =>
    subst ends
    rfl
  | cons stage stages ih =>
    obtain ⟨between, first, rest⟩ := ends
    exact ⟨_, first.erase (steady stage mem_cons_self),
      ih (fun stage mem => steady stage (.tail _ mem)) rest⟩

/-- A barrier at the end of the input of a plan ends its output when no window holds records
then. -/
theorem PlanEnds.last (steady : ∀ stage ∈ stages, stage.Steady) {m : Record}
    (barrier : isCheckpoint m = true) (ends : PlanEnds Task.Idle stages (input ++ [m]) output) :
    ∃ front, output = front ++ [m] := by
  induction stages generalizing input with
  | nil => exact ⟨input, ends⟩
  | cons stage stages ih =>
    obtain ⟨between, first, rest⟩ := ends
    obtain ⟨front, rfl⟩ := first.last (steady stage mem_cons_self) barrier
    exact ih (fun stage mem => steady stage (.tail _ mem)) rest

theorem PlanEnds.mono {mem' : Task → Prop} (weaker : ∀ task, ok task → mem' task)
    (ends : PlanEnds ok stages input output) : PlanEnds mem' stages input output := by
  induction stages generalizing input with
  | nil => exact ends
  | cons stage stages ih =>
    obtain ⟨between, first, rest⟩ := ends
    exact ⟨between, first.mono weaker, ih rest⟩

/-! ## The goroutines of a keyed stage -/

theorem copy_runs {p g : Goroutine} (copies : p = .copy) (runs : Runs goroutines p input output g) :
    g = .copy ∧ output = input := by
  induction runs with
  | nil p => exact ⟨copies, rfl⟩
  | cons choice reacts _ ih =>
    subst copies
    cases reacts
    obtain ⟨same, rfl⟩ := ih rfl
    exact ⟨same, rfl⟩

theorem copy_ends {ok : Goroutine → Prop} (ends : Ends goroutines ok .copy input output) :
    output = input := by
  obtain ⟨ran, g, choice, flushed, last, runs, -, flush, sent⟩ := ends
  obtain ⟨rfl, rfl⟩ := copy_runs rfl runs
  cases flush
  rw [sent, append_nil]

theorem operator_runs {p g : Goroutine} (operates : p = .operator op)
    (runs : Runs goroutines p input output g) :
    ∃ after, g = .operator after ∧ Runs tasks (.stateful op) input output (.stateful after) := by
  induction runs generalizing op with
  | nil p => exact ⟨op, operates, .nil _⟩
  | cons choice reacts _ ih =>
    subst operates
    obtain ⟨next, goes, same⟩ := of_map_eq_send reacts
    obtain ⟨after, last, later⟩ := ih same.symm
    exact ⟨after, last, .cons choice (by simp [tasks, goes, Reaction.map, Reaction.send]) later⟩

theorem operator_ends (ends : Ends goroutines (fun _ => True) (.operator op) input output) :
    Ends tasks (fun _ => True) (.stateful op) input output := by
  obtain ⟨ran, g, choice, flushed, last, runs, -, flush, sent⟩ := ends
  obtain ⟨after, rfl, reads⟩ := operator_runs rfl runs
  obtain ⟨next, goes, -⟩ := of_map_eq_send flush
  exact ⟨ran, .stateful after, choice, flushed, .stateful next, reads, trivial,
    by simp [tasks, goes, Reaction.map, Reaction.send], sent⟩

theorem workerChain_completes {ops : List Operator}
    (run : Completes goroutines (fun _ => True) (workerChain ops) input output) :
    Completes tasks (fun _ => True) (ops.map .stateful) input output := by
  have body : ∀ {ops : List Operator} {input : List Record}, Completes goroutines (fun _ => True)
      ((ops.flatMap fun op => [Goroutine.operator op, .copy, .copy]) ++ [.copy]) input output →
      Completes tasks (fun _ => True) (ops.map .stateful) input output := by
    intro ops
    induction ops with
    | nil =>
      rintro input ⟨between, copied, rfl⟩
      exact copy_ends copied
    | cons op ops ih =>
      rintro input ⟨sent, operated, counted, first, timed, second, rest⟩
      obtain rfl := copy_ends first
      obtain rfl := copy_ends second
      exact ⟨_, operator_ends operated, ih rest⟩
  cases ops with
  | nil => exact body run
  | cons op ops =>
    obtain ⟨between, counted, rest⟩ := run
    obtain rfl := copy_ends counted
    exact body rest

omit [TimeText] [JoinText] in
theorem dispatched_keyed {n : Nat} [NeZero n] (keyBy : KeyByOperator)
    (workers : Fin n → List Operator) (w : Fin n) (count : Nat) (records : List Record) :
    (Stage.keyed keyBy n workers).dispatched w count records =
    KeyedStage.routed keyBy w records := by
  induction records generalizing count with
  | nil => rfl
  | cons r rest ih =>
    have first : (Stage.keyed keyBy n workers).dispatched w count (r :: rest) =
        (KeyedStage.route keyBy r).owed w ++ (Stage.keyed keyBy n workers).dispatched w
          (if r.isMarker then count else count + 1) rest := rfl
    rw [first, ih, KeyedStage.routed_cons]

/-- A keyed stage whose merge has returned has made a complete run of the stage of the plan. -/
theorem keyedStage_ends {n : Nat} [NeZero n] (keyBy : KeyByOperator) (workers : Workers n)
    (steady : ∀ w, ∀ op ∈ workers.chain w, op.Steady) {s : KeyedStage n}
    (reach : Reach (KeyedStage.step keyBy) Always (KeyedStage.start workers.chain) s)
    (returned : s.merge.loop = .returned) :
    (Stage.keyed keyBy n workers.chain).Ends (fun _ => True) s.fed (s.merge.out.map Prod.snd) := by
  have inv := KeyedStage.parallel_inv keyBy workers steady reach
  refine ⟨s.merge.out, rfl, fun (w : Fin n) => ?_⟩
  have run := workerChain_completes (inv.completes returned w)
  have given : (KeyedStage.layout keyBy).routed w () s.fed =
      (Stage.keyed keyBy n workers.chain).dispatched w 0 s.fed := by
    rw [KeyedStage.routed_layout, dispatched_keyed keyBy workers.chain w 0]
  exact given ▸ run

variable {ops : List StatelessOperator}

theorem stateless_ends (total : ∀ op ∈ ops, op.Total) (input : List Record) :
    Ends tasks (fun _ => True) (.stateless ops) input (input.flatMap (replaced ops)) := by
  refine ⟨_, .stateless ops, 0, [], .stateless ops, ?_, trivial, rfl, (append_nil _).symm⟩
  induction input with
  | nil => exact .nil _
  | cons r rest ih =>
    rw [flatMap_cons]
    refine .cons 0 ?_ ih
    simp [tasks, runWorker_total total, Reaction.map, Reaction.send]

/-- The workers that `StatelessStage` starts. -/
instance neZeroWorkers (parallelism : Nat) : NeZero (max parallelism 1) := ⟨by omega⟩

omit [TimeText] [JoinText] in
theorem dispatched_stateless (grow : Nat → Nat) (ops : List StatelessOperator) (parallelism : Nat)
    (w : Fin (max parallelism 1)) (count : Nat) (records : List Record) :
    (Stage.stateless ops parallelism).dispatched w count records =
      (layout grow ops (max parallelism 1)).routed w
        (Fin.ofNat (max parallelism 1) count) records := by
  induction records generalizing count with
  | nil => rfl
  | cons r rest ih =>
    have first : (Stage.stateless ops parallelism).dispatched w count (r :: rest) =
        (if r.isMarker ∨ count % max parallelism 1 = w then [r] else []) ++
          (Stage.stateless ops parallelism).dispatched w
            (if r.isMarker then count else count + 1) rest := rfl
    rw [first, Layout.routed, ih]
    cases kind : r.isMarker with
    | true => simp [layout, dispatch, kind, Router.owed]
    | false =>
      have target : count % max parallelism 1 = w ↔ w = Fin.ofNat (max parallelism 1) count := by
        rw [Fin.ext_iff, Fin.val_ofNat, eq_comm]
      have next : Fin.ofNat (max parallelism 1) count + 1 =
          Fin.ofNat (max parallelism 1) (count + 1) := by
        ext
        simp [Fin.val_add]
      have route : (layout grow ops (max parallelism 1)).route
          (Fin.ofNat (max parallelism 1) count) r =
            (.send r [Fin.ofNat (max parallelism 1) count],
              Fin.ofNat (max parallelism 1) (count + 1)) := by
        rw [← next]
        simp only [layout, dispatch, kind, Bool.false_eq_true,
          if_false]
      simp only [route, Router.owed, target, mem_singleton, Bool.false_eq_true, false_or,
        if_false]

/-- So has a stateless stage with a dispatcher. -/
theorem statelessStage_ends (grow : Nat → Nat) {parallelism : Nat}
    (total : ∀ op ∈ ops, op.Total) (plain : ∀ op ∈ ops, op.Plain)
    {s : Parallel Buffers (Fin (max parallelism 1)) (max parallelism 1)}
    (reach : Reach (Parallel.step (layout grow ops (max parallelism 1))) Always
      (StatelessStage.start (max parallelism 1)) s) (returned : s.merge.loop = .returned) :
    (Stage.stateless ops parallelism).Ends (fun _ => True) s.fed (s.merge.out.map Prod.snd) := by
  have inv := Parallel.inv_reach (crew grow total plain (max parallelism 1)) reach
  refine ⟨s.merge.out, rfl, fun (w : Fin (max parallelism 1)) => ?_⟩
  obtain ⟨between, ⟨ran, q, choice, flushed, last, runs, -, flush, sent⟩, same⟩ :=
    inv.completes returned w
  cases flush
  have output : Tagged.view isMarker w s.merge.out =
      ((Stage.stateless ops parallelism).dispatched w 0 s.fed).flatMap
        (replaced ops) := by
    rw [dispatched_stateless grow ops parallelism w 0 s.fed]
    rw [append_nil] at sent
    exact (same.trans sent).trans (Buffers.worker_runs total Buffers.separate_start runs)
  exact ⟨_, stateless_ends total _, output⟩

/-- A stage with one worker has no dispatcher and no merge. -/
theorem serial_ends (grow : Nat → Nat) {parallelism : Nat}
    (single : parallelism ≤ 1) (total : ∀ op ∈ ops, op.Total) {s : Serial}
    (reach : Reach (Serial.step grow ops) Always Serial.start s) (ended : s.outClosed = true) :
    (Stage.stateless ops parallelism).Ends (fun _ => True) s.fed s.out := by
  have inv : Serial.Inv grow total s :=
    reach.invariant Serial.inv_start fun _ _ _ inv _ moves => Serial.inv_step inv moves
  have only : ∀ w : Fin (max parallelism 1), w = 0 := fun w => by
    ext
    simp
    omega
  have given : ∀ (w : Fin (max parallelism 1)) (count : Nat) (records : List Record),
      (Stage.stateless ops parallelism).dispatched w count records = records := by
    intro w count records
    induction records generalizing count with
    | nil => rfl
    | cons r rest ih =>
      have here : count % max parallelism 1 = w := by
        have one : max parallelism 1 = 1 := by omega
        have none : count % max parallelism 1 = 0 := by rw [one, Nat.mod_one]
        have zero := w.isLt
        omega
      have first : (Stage.stateless ops parallelism).dispatched w count (r :: rest) =
          (if r.isMarker ∨ count % max parallelism 1 = w then [r] else []) ++
            (Stage.stateless ops parallelism).dispatched w
              (if r.isMarker then count else count + 1) rest := rfl
      rw [first, ih]
      simp [here]
  obtain ⟨taken, whole, sent⟩ := Buffers.worker_output total inv.passes
  have phase := inv.closed.1 ended
  have drained := (inv.passes.stopped (by simp [phase, Chain.Phase.state])).2
  rw [drained, append_nil] at whole
  simp only [phase, Chain.Phase.pending, append_nil] at sent
  refine ⟨s.out.map ((0 : Fin (max parallelism 1)), ·), by simp [comp_def],
    fun (w : Fin (max parallelism 1)) => ?_⟩
  have output : Tagged.view isMarker w (s.out.map ((0 : Fin (max parallelism 1)), ·)) =
      ((Stage.stateless ops parallelism).dispatched w 0 s.fed).flatMap
        (replaced ops) := by
    rw [given w, only w, whole, ← sent]
    simp [Tagged.view, List.filter_map, comp_def]
  exact ⟨_, stateless_ends total _, output⟩

end Plan

/-! ## A marker between two records -/

section Examples

attribute [local instance] TimeText.blank JoinText.blank

/-- A record with the key `a`, a barrier and a record with the key `b`. -/
def aroundBarrier : List Record := [{ key := [97] }, firstBarrier, { key := [98] }]

/-- A worker of the given number of goroutines passes two records on and returns. -/
def relaysTwo {n : Nat} (goroutines : Nat) (w : Fin n) : List (KeyedMove n) :=
  (range goroutines).flatMap (fun position =>
    [Act.take 0, .push, .settle, .take 0, .push, .settle, .drain 0, .settle].map
      (.worker w position)) ++ [.finish w]

/-- The merge passes a record of the first worker, the barrier and a record of the second one. -/
def merges {n : Nat} [NeZero n] : List (MergeAction n) :=
  [.take 0, .forward 0, .receive, .send, .take 0, .forward 0, .receive, .take 1, .forward 1,
    .receive,
    .send, .signal, .signal, .signal, .unpark 0, .unpark 1, .finish 0, .take 1, .forward 1,
      .receive, .send,
    .finish 1, .ret]

/-- All moves of a stage with two workers, each a chain of goroutines. -/
def wholeSchedule (n : Nat) [NeZero n] (goroutines : Nat) : List (KeyedAction n) :=
  let dispatches :
    List (KeyedMove n) := [.receive, .dispatch, .dispatch, .receive, .dispatch, .dispatch,
    .dispatch, .receive, .dispatch, .dispatch, .close]
  aroundBarrier.map .feed ++ .closeInput ::
    (dispatches ++ relaysTwo goroutines 0 ++ relaysTwo goroutines 1 ++
    merges.map KeyedMove.merge).map .move

/-- A reduction that counts the records of a key. -/
def countsKeys : Operator := .reduce { fn := fun accum _ => some (some (0 :: accum.getD [])) }

/-- Two workers count the records of their keys, and the barrier leaves the stage between the
counts. -/
theorem keyedStage_ends_counts :
    (Stage.keyed byKey 2 (Workers.clones 2 [countsKeys]).chain).Ends (fun _ => True) aroundBarrier
    [{ key := [97], value := [0] }, firstBarrier, { key := [98], value := [0] }] := by
  obtain ⟨s, reach, holds⟩ := Reach.exists_of_run (KeyedStage.step byKey)
    (KeyedStage.start (Workers.clones 2 [countsKeys]).chain) (wholeSchedule 2 5)
    (fun s => decide (s.merge.loop = .returned ∧ s.fed = aroundBarrier ∧ s.merge.out.map Prod.snd =
      [{ key := [97], value := [0] }, firstBarrier, { key := [98], value := [0] }]))
        (by decide +kernel)
  obtain ⟨returned, fed, sent⟩ := of_decide_eq_true holds
  have ends := keyedStage_ends byKey (Workers.clones 2 [countsKeys]) (fun w op mem => by
    obtain rfl : op = countsKeys.clone := by simpa [Workers.clones] using mem
    exact fun _ _ => rfl) reach returned
  rwa [fed, sent] at ends

/-- An operator that stamps the records with a value. -/
def stamps : StatelessOperator := .map fun r => { r with value := [1] }

theorem stamps_total : ∀ op ∈ [stamps], op.Total := by
  simp [stamps, StatelessOperator.Total, StatelessOperator.processOne]

/-- What it makes of the records around the barrier. -/
def stamped :
    List Record := [{ key := [97], value := [1] }, firstBarrier, { key := [98], value := [1] }]

/-- Two workers stamp one record each. -/
theorem statelessStage_ends_stamps :
    (Stage.stateless [stamps] 2).Ends (fun _ => True) aroundBarrier stamped := by
  obtain ⟨s, reach, holds⟩ :=
    Reach.exists_of_run (Parallel.step (layout (fun _ => 0) [stamps] (max 2 1)))
    (StatelessStage.start (max 2 1)) (wholeSchedule (max 2 1) 1)
    (fun s => decide (s.merge.loop = .returned ∧ s.fed = aroundBarrier ∧
      s.merge.out.map Prod.snd = stamped))
    (by decide +kernel)
  obtain ⟨returned, fed, sent⟩ := of_decide_eq_true holds
  have plain : ∀ op ∈ [stamps], op.Plain := by
    simp +contextual [stamps, StatelessOperator.Plain, StatelessOperator.processOne, isMarker]
  have ends := statelessStage_ends (fun _ => 0) stamps_total plain reach returned
  rwa [fed, sent] at ends

/-- One worker stamps both records. -/
theorem serial_ends_stamps :
    (Stage.stateless [stamps] 1).Ends (fun _ => True) aroundBarrier stamped := by
  obtain ⟨s, reach, holds⟩ := Reach.exists_of_run (Serial.step (fun _ => 0) [stamps]) Serial.start
    (aroundBarrier.map .feed ++ .closeInput ::
      (([.take 0, .push, .settle, .take 0, .push, .settle, .take 0, .push,
      .settle, .drain 0, .settle] : List Act).map .move))
    (fun s => decide (s.outClosed = true ∧ s.fed = aroundBarrier ∧ s.out = stamped))
      (by decide +kernel)
  obtain ⟨ended, fed, sent⟩ := of_decide_eq_true holds
  have ends := serial_ends (fun _ => 0) le_rfl stamps_total reach ended
  rwa [fed, sent] at ends

end Examples

end Weibo.Pipeline
