import Weibo.Operator.Stateful
import Weibo.Pipeline.Alignment

/-!
# The keyed stage

`KeyedStage.Run` routes records to `n` workers by the hash of their key, broadcasts markers, runs a
chain of operator clones per worker and merges the outputs. The model has one transition per
communication of a goroutine.
-/

namespace Weibo.Pipeline

open Chain (Node Act Emission)

instance neZeroTwo : NeZero 2 := ⟨by decide⟩

structure KeyByOperator where
  keySelector : Record → Bytes

def fnv32a (key : Bytes) : UInt32 :=
  key.foldl (fun h b => (h ^^^ b.toUInt32) * 16777619) 2166136261

/-- `RouteKey` for `n` partitions. -/
def routeKey (n : Nat) [NeZero n] (key : Bytes) : Fin n :=
  if key.isEmpty ∨ n ≤ 1 then 0 else Fin.ofNat n (fnv32a key).toNat

inductive Goroutine
  | copy
  | operator (op : Operator)

section Processor

variable [TimeText] [JoinText]

def goroutines : Chain.Processor Goroutine Record where
  react
    | .copy, _, r => .send [r] .copy
    | .operator op, choice, r => (op.process choice r).map .operator
  flush
    | .copy, _ => .send [] .copy
    | .operator op, choice => (op.finish choice).map .operator
  expires
    | .copy => false
    | .operator op => op.timed

def goroutinesPacing : Chain.Pacing goroutines Record.isMarker Pulse where
  safe
    | .copy => True
    | .operator op => op.Steady
  shadow
    | .copy => .pass
    | .operator op => op.pulse
  follow := Pulse.follow
  patient
    | .copy, _ => rfl
    | .operator (.window op), steady => by simpa [goroutines, Operator.timed] using steady.1
    | .operator (.reduce op), _ => rfl
    | .operator (.keyedProcess op), _ => rfl
    | .operator (.intervalJoin op), _ => rfl
  data
    | .copy, _, r, _, data => Reaction.meets_send (by simpa using data) ⟨trivial, rfl⟩
    | .operator _, choice, _, steady, data =>
      (Operator.process_data steady choice data).map fun _ kept => kept
  marked
    | .copy, _, r, _, marker => ⟨by simp [goroutines, Reaction.send, marker, Pulse.follow], .copy,
        rfl, trivial, rfl⟩
    | .operator _, choice, _, steady, marker => by
      obtain ⟨sends, after, next, kept, pulse⟩ := Operator.process_marker steady choice marker
      exact ⟨sends, .operator after, by simp [goroutines, Reaction.map, next], kept, pulse⟩
  flushed
    | .copy, _, _ => Reaction.meets_send (by simp) trivial
    | .operator _, choice, steady => (Operator.finish_data steady choice).map fun _ _ => trivial

end Processor

def workerChain (ops : List Operator) : List Goroutine :=
  (if ops.isEmpty then [] else .copy :: ops.flatMap fun op => [.operator op, .copy, .copy]) ++
    [.copy]

inductive Router (n : Nat)
  | receive
  | send (r : Record) (targets : List (Fin n))
  | returned
  deriving DecidableEq

/-- What the router has still to send to worker `w`. -/
def Router.owed {n : Nat} : Router n → Fin n → List Record
  | .send r targets, w => if w ∈ targets then [r] else []
  | _, _ => []

structure KeyedStage (n : Nat) where
  input : List Record
  inputClosed : Bool
  router : Router n
  chains : Fin n → List (Node Goroutine Record)
  merge : Merge n
  cancelled : Bool
  fed : List Record

inductive KeyedMove (n : Nat)
  | receive
  | dispatch
  | close
  | worker (w : Fin n) (position : Nat) (act : Act)
  | finish (w : Fin n)
  | merge (a : MergeAction n)

inductive KeyedAction (n : Nat)
  | feed (r : Record)
  | closeInput
  | move (m : KeyedMove n)

/-- What a worker reads from its operators' error channels in order: `none` while the next
one is still running, else whether one of them failed. -/
def opErrs : List (Node Goroutine Record) → Option Bool
  | op :: _ :: _ :: rest =>
    match op.phase with
    | .returned true => some true
    | .returned false => opErrs rest
    | _ => none
  | _ => some false

namespace KeyedStage

variable {n : Nat}

def start (workers : Fin n → List Operator) : KeyedStage n where
  input := []
  inputClosed := false
  router := .receive
  chains w := (workerChain (workers w)).map Node.start
  merge := .start
  cancelled := false
  fed := []

def route [NeZero n] (keyBy : KeyByOperator) (r : Record) : Router n :=
  if r.isMarker then .send r (List.finRange n)
  else
    let key := keyBy.keySelector r
    .send (r.withKey key) [routeKey n key]

def routed [NeZero n] (keyBy : KeyByOperator) (w : Fin n) (records : List Record) : List Record :=
  records.flatMap fun r => (route keyBy r).owed w

@[simp]
theorem routed_nil [NeZero n] (keyBy : KeyByOperator) (w : Fin n) : routed keyBy w [] = [] := rfl

@[simp]
theorem routed_cons [NeZero n] (keyBy : KeyByOperator) (w : Fin n) (r : Record)
    (rest : List Record) :
    routed keyBy w (r :: rest) = (route keyBy r).owed w ++ routed keyBy w rest := rfl

def absorb (m : Merge n) (w : Fin n) : Emission Record → Option (Merge n)
  | .send r => m.offer w r
  | _ => some m

def move [NeZero n] [TimeText] [JoinText] (keyBy : KeyByOperator) (s : KeyedStage n) :
    KeyedMove n → Option (KeyedStage n)
  | .receive =>
    match s.cancelled, s.router, s.input with
    | false, .receive, r :: rest => some { s with input := rest, router := route keyBy r }
    | _, _, _ => none
  | .dispatch =>
    match s.cancelled, s.router with
    | false, .send r (w :: rest) =>
      (Chain.feed internalBuf (s.chains w) (.send r)).map fun chain =>
        { s with router := .send r rest, chains := Function.update s.chains w chain }
    | false, .send _ [] => some { s with router := .receive }
    | _, _ => none
  | .close =>
    match s.cancelled, s.router, s.input, s.inputClosed with
    | false, .receive, [], true =>
      some { s with
        router := .returned
        chains := fun w => (Chain.feed internalBuf (s.chains w) .close).getD (s.chains w) }
    | _, _, _, _ => none
  | .worker w position act =>
    match s.cancelled, Chain.step goroutines internalBuf (s.chains w) position act with
    | false, some (chain, emission) =>
      (absorb s.merge w emission).map fun m =>
        { s with chains := Function.update s.chains w chain, merge := m }
    | _, _ => none
  | .finish w =>
    match s.cancelled, s.merge.closed w, (s.chains w).getLast?.map Node.phase with
    | false, false, some (.returned _) =>
      (opErrs (s.chains w).tail).map fun failed =>
        if failed then { s with cancelled := true } else { s with merge := s.merge.close w }
    | _, _, _ => none
  | .merge a =>
    if s.cancelled then none else (s.merge.step a).map fun m => { s with merge := m }

def step [NeZero n] [TimeText] [JoinText] (keyBy : KeyByOperator) (s : KeyedStage n) :
    KeyedAction n → Option (KeyedStage n)
  | .feed r =>
    if s.inputClosed then none else some { s with input := s.input ++ [r], fed := s.fed ++ [r] }
  | .closeInput => if s.inputClosed then none else some { s with inputClosed := true }
  | .move m => s.move keyBy m

end KeyedStage

end Weibo.Pipeline
