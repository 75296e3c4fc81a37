import Weibo.Lib.Tagged
import Weibo.Lib.Transition
import Weibo.Types.Record

/-!
# The aligned merge of a parallel stage

`alignedMerge` has one fan-in goroutine per worker, which forwards records through the `fanIn`
channel and parks after a marker; the merge loop holds a marker until all `n` copies arrived, sends
it once, and releases every parked goroutine through its `resume` channel.
-/

namespace Weibo.Pipeline

open Option Function

/-- `internalBuf`, the capacity of the channels inside a stage. -/
def internalBuf : Nat := 256

inductive FanIn
  | receive
  | send (r : Record)
  | parked
  | done
  deriving DecidableEq

inductive MergeLoop (n : Nat)
  | receive
  | send (w : Fin n) (r : Record)
  | sendMarker (w : Fin n) (r : Record)
  | resume (i : Nat)
  | returned
  deriving DecidableEq

structure Merge (n : Nat) where
  workerOuts : Fin n → List Record
  closed : Fin n → Bool
  fan : Fin n → FanIn
  resume : Fin n → Bool
  fanIn : List (Fin n × Record)
  arrived : Nat
  loop : MergeLoop n
  out : List (Fin n × Record)

inductive MergeAction (n : Nat)
  | take (w : Fin n)
  | forward (w : Fin n)
  | unpark (w : Fin n)
  | finish (w : Fin n)
  | receive
  | send
  | signal
  | ret

namespace Merge

variable {n : Nat}

def start : Merge n where
  workerOuts _ := []
  closed _ := false
  fan _ := .receive
  resume _ := false
  fanIn := []
  arrived := 0
  loop := .receive
  out := []

/-- The merge loop's reaction to a record received from `fanIn`. -/
def accept (m : Merge n) (w : Fin n) (r : Record) : Merge n :=
  if r.isMarker then
    if m.arrived + 1 < n then { m with arrived := m.arrived + 1 }
    else { m with arrived := 0, loop := .sendMarker w r }
  else { m with loop := .send w r }

/-- One atomic move; `none` when the goroutine is blocked or elsewhere. -/
def step (m : Merge n) : MergeAction n → Option (Merge n)
  | .take w =>
    match m.fan w, m.workerOuts w with
    | .receive, r :: rest =>
      some { m with
        workerOuts := update m.workerOuts w rest
        fan := update m.fan w (.send r) }
    | _, _ => none
  | .forward w =>
    match m.fan w with
    | .send r =>
      if m.fanIn.length < internalBuf then
        some { m with
          fanIn := m.fanIn ++ [(w, r)]
          fan := update m.fan w (if r.isMarker then .parked else .receive) }
      else none
    | _ => none
  | .unpark w =>
    match m.fan w, m.resume w with
    | .parked, true =>
      some { m with
        resume := update m.resume w false
        fan := update m.fan w .receive }
    | _, _ => none
  | .finish w =>
    match m.fan w, m.workerOuts w, m.closed w with
    | .receive, [], true => some { m with fan := update m.fan w .done }
    | _, _, _ => none
  | .receive =>
    match m.loop, m.fanIn with
    | .receive, (w, r) :: rest => some ({ m with fanIn := rest }.accept w r)
    | _, _ => none
  | .send =>
    match m.loop with
    | .send w r => some { m with loop := .receive, out := m.out ++ [(w, r)] }
    | .sendMarker w r => some { m with loop := .resume 0, out := m.out ++ [(w, r)] }
    | _ => none
  | .signal =>
    match m.loop with
    | .resume i =>
      if inside : i < n then
        if m.resume ⟨i, inside⟩ then none
        else some { m with
          resume := update m.resume ⟨i, inside⟩ true
          loop := .resume (i + 1) }
      else some { m with loop := .receive }
    | _ => none
  | .ret =>
    match m.loop, m.fanIn with
    | .receive, [] =>
      if ∀ w, m.fan w = .done then some { m with loop := .returned } else none
    | _, _ => none

def offer (m : Merge n) (w : Fin n) (r : Record) : Option (Merge n) :=
  if (m.workerOuts w).length < internalBuf then
    some { m with workerOuts := update m.workerOuts w (m.workerOuts w ++ [r]) }
  else none

theorem offer_closed {m t : Merge n} {w : Fin n} {r : Record} (sent : m.offer w r = some t) :
    t.closed = m.closed := by
  simp only [offer] at sent
  split at sent
  · exact some.inj sent ▸ rfl
  · cases sent

def close (m : Merge n) (w : Fin n) : Merge n :=
  { m with closed := update m.closed w true }

/-! ## What a move can do -/

inductive Move (m : Merge n) : Merge n → Prop
  | take (w : Fin n) (r : Record) (rest : List Record) (idle : m.fan w = .receive)
      (first : m.workerOuts w = r :: rest) :
      Move m { m with
        workerOuts := update m.workerOuts w rest
        fan := update m.fan w (.send r) }
  | forward (w : Fin n) (r : Record) (holds : m.fan w = .send r)
      (room : m.fanIn.length < internalBuf) :
      Move m { m with
        fanIn := m.fanIn ++ [(w, r)]
        fan := update m.fan w (if r.isMarker then .parked else .receive) }
  | unpark (w : Fin n) (waits : m.fan w = .parked) (token : m.resume w = true) :
      Move m { m with
        resume := update m.resume w false
        fan := update m.fan w .receive }
  | finish (w : Fin n) (idle : m.fan w = .receive) (drained : m.workerOuts w = [])
      (closed : m.closed w = true) :
      Move m { m with fan := update m.fan w .done }
  | receive (w : Fin n) (r : Record) (rest : List (Fin n × Record)) (idle : m.loop = .receive)
      (first : m.fanIn = (w, r) :: rest) : Move m ({ m with fanIn := rest }.accept w r)
  | send (w : Fin n) (r : Record) (holds : m.loop = .send w r) :
      Move m { m with loop := .receive, out := m.out ++ [(w, r)] }
  | sendMarker (w : Fin n) (r : Record) (holds : m.loop = .sendMarker w r) :
      Move m { m with loop := .resume 0, out := m.out ++ [(w, r)] }
  | signal (i : Fin n) (now : m.loop = .resume i) (empty : m.resume i = false) :
      Move m { m with
        resume := update m.resume i true
        loop := .resume (i + 1) }
  | resumed (i : Nat) (now : m.loop = .resume i) (past : n ≤ i) : Move m { m with loop := .receive }
  | ret (idle : m.loop = .receive) (drained : m.fanIn = []) (done : ∀ w, m.fan w = .done) :
      Move m { m with loop := .returned }

theorem move_of_step {m t : Merge n} {a : MergeAction n}
    (moves : m.step a = some t) : Move m t := by
  cases a with simp only [step] at moves
  | take w =>
    split at moves
    next r rest idle first =>
      exact some.inj moves ▸ .take w r rest idle first
    · cases moves
  | forward w =>
    split at moves
    next r holds =>
      split at moves
      · exact some.inj moves ▸ .forward w r holds ‹_›
      · cases moves
    · cases moves
  | unpark w =>
    split at moves
    · exact some.inj moves ▸ .unpark w ‹_› ‹_›
    · cases moves
  | finish w =>
    split at moves
    · exact some.inj moves ▸ .finish w ‹_› ‹_› ‹_›
    · cases moves
  | receive =>
    split at moves
    next w r rest idle first =>
      exact some.inj moves ▸ .receive w r rest idle first
    · cases moves
  | send =>
    split at moves
    · exact some.inj moves ▸ .send _ _ ‹_›
    · exact some.inj moves ▸ .sendMarker _ _ ‹_›
    · cases moves
  | signal =>
    split at moves
    next i now =>
      split at moves
      next inside =>
        split at moves
        · cases moves
        next empty =>
          exact some.inj moves ▸ .signal ⟨i, inside⟩ now (by simpa using empty)
      · exact some.inj moves ▸ .resumed i now (by omega)
    · cases moves
  | ret =>
    split at moves
    · split at moves
      · exact some.inj moves ▸ .ret ‹_› ‹_› ‹_›
      · cases moves
    · cases moves

end Merge

end Weibo.Pipeline
