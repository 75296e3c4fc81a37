import Weibo.Lib.Reaction

/-!
# Chains of stream processors

A chain is a list of processors connected by bounded channels. A processor stops when its input is
closed and drained, after flushing; when its reaction fails; or, if it can expire, at any moment it
waits. Every move lowers a measure, so a chain without input stops.
-/

namespace Chain

open Option List

variable {π α : Type}

/-- The behaviour of processors with states `π`; the number resolves their free choices. -/
structure Processor (π α : Type) where
  react : π → Nat → α → Reaction π α
  flush : π → Nat → Reaction π α
  expires : π → Bool

inductive After (π : Type)
  | resume (p : π)
  | stop (failed : Bool)
  deriving DecidableEq

inductive Phase (π α : Type)
  | serve (p : π)
  | emit (pending : List α) (after : After π)
  | returned (failed : Bool)
  deriving DecidableEq

structure Node (π α : Type) where
  queue : List α
  closed : Bool
  phase : Phase π α
  deriving DecidableEq

inductive Act
  | take (choice : Nat)
  | push
  | settle
  | drain (choice : Nat)
  | expire (choice : Nat)

inductive Emission (α : Type)
  | silent
  | send (a : α)
  | close

def Emission.sent : Emission α → List α
  | .send a => [a]
  | _ => []

def After.ofNext : Option π → After π
  | some p => .resume p
  | none => .stop true

def Phase.flushing (reaction : Reaction π α) : Phase π α :=
  .emit reaction.sends (.stop reaction.next.isNone)

namespace Node

/-- A processor in state `p` with an open, empty input. -/
def start (p : π) : Node π α := ⟨[], false, .serve p⟩

/-- One move of a processor; `none` when it is blocked or elsewhere. -/
def act (proc : Processor π α) (node : Node π α) : Act → Option (Node π α × Emission α)
  | .take choice =>
    match node.phase, node.queue with
    | .serve p, a :: rest =>
      let reaction := proc.react p choice a
      some (⟨rest, node.closed, .emit reaction.sends (.ofNext reaction.next)⟩, .silent)
    | _, _ => none
  | .push =>
    match node.phase with
    | .emit (a :: rest) after => some (⟨node.queue, node.closed, .emit rest after⟩, .send a)
    | _ => none
  | .settle =>
    match node.phase with
    | .emit [] (.resume p) => some (⟨node.queue, node.closed, .serve p⟩, .silent)
    | .emit [] (.stop failed) => some (⟨node.queue, node.closed, .returned failed⟩, .close)
    | _ => none
  | .drain choice =>
    match node.phase, node.queue, node.closed with
    | .serve p, [], true => some (⟨[], true, .flushing (proc.flush p choice)⟩, .silent)
    | _, _, _ => none
  | .expire choice =>
    match node.phase with
    | .serve p =>
      if proc.expires p then
        some (⟨node.queue, node.closed, .flushing (proc.flush p choice)⟩, .silent)
      else none
    | _ => none

def receive (cap : Nat) (node : Node π α) : Emission α → Option (Node π α)
  | .silent => some node
  | .send a =>
    if node.queue.length < cap then some { node with queue := node.queue ++ [a] } else none
  | .close => some { node with closed := true }

end Node

def step (proc : Processor π α) (cap : Nat) :
    List (Node π α) → Nat → Act → Option (List (Node π α) × Emission α)
  | [], _, _ => none
  | node :: rest, 0, a =>
    match node.act proc a, rest with
    | none, _ => none
    | some (moved, emission), [] => some ([moved], emission)
    | some (moved, emission), next :: later =>
      (next.receive cap emission).map fun next => (moved :: next :: later, .silent)
  | node :: rest, i + 1, a =>
    (step proc cap rest i a).map fun result => (node :: result.1, result.2)

/-! ## What a move can do -/

inductive Acts (proc : Processor π α) (node : Node π α) : Node π α → Emission α → Prop
  | take (p : π) (choice : Nat) (a : α) (rest : List α) (waits : node.phase = .serve p)
      (first : node.queue = a :: rest) :
      Acts proc node ⟨rest, node.closed, .emit (proc.react p choice a).sends
        (.ofNext (proc.react p choice a).next)⟩ .silent
  | push (a : α) (rest : List α) (after : After π)
      (sending : node.phase = .emit (a :: rest) after) :
      Acts proc node ⟨node.queue, node.closed, .emit rest after⟩ (.send a)
  | resume (p : π) (sent : node.phase = .emit [] (.resume p)) :
      Acts proc node ⟨node.queue, node.closed, .serve p⟩ .silent
  | stop (failed : Bool) (sent : node.phase = .emit [] (.stop failed)) :
      Acts proc node ⟨node.queue, node.closed, .returned failed⟩ .close
  | drain (p : π) (choice : Nat) (waits : node.phase = .serve p) (empty : node.queue = [])
      (closed : node.closed = true) :
      Acts proc node ⟨[], true, .flushing (proc.flush p choice)⟩ .silent
  | expire (p : π) (choice : Nat) (waits : node.phase = .serve p)
      (due : proc.expires p = true) :
      Acts proc node ⟨node.queue, node.closed, .flushing (proc.flush p choice)⟩ .silent

variable {proc : Processor π α} {emission : Emission α}

theorem acts_of_act {node moved : Node π α} {a : Act}
    (moves : node.act proc a = some (moved, emission)) : Acts proc node moved emission := by
  cases a with simp only [Node.act] at moves
  | take choice =>
    split at moves
    next p x rest waits first =>
      cases moves
      exact .take p choice x rest waits first
    · cases moves
  | push =>
    split at moves
    · cases moves
      exact .push _ _ _ ‹_›
    · cases moves
  | settle =>
    split at moves
    · cases moves
      exact .resume _ ‹_›
    · cases moves
      exact .stop _ ‹_›
    · cases moves
  | drain choice =>
    split at moves
    · cases moves
      exact .drain _ choice ‹_› ‹_› ‹_›
    · cases moves
  | expire choice =>
    split at moves
    · split at moves
      · cases moves
        exact .expire _ choice ‹_› ‹_›
      · cases moves
    · cases moves

def feed (cap : Nat) : List (Node π α) → Emission α → Option (List (Node π α))
  | [], _ => none
  | node :: rest, emission => (node.receive cap emission).map (· :: rest)

variable {cap : Nat} {nodes : List (Node π α)}

theorem feed_phase {fed : List (Node π α)}
    (sent : feed cap nodes emission = some fed) : fed.map Node.phase = nodes.map Node.phase := by
  cases nodes with
  | nil => cases sent
  | cons node nodes =>
    obtain ⟨moved, arrives, rfl⟩ := map_eq_some_iff.1 sent
    cases emission with
    | silent | close =>
      cases arrives
      rfl
    | send a =>
      simp only [Node.receive] at arrives
      split at arrives
      · cases arrives
        rfl
      · cases arrives

theorem feed_send_closed {fed : List (Node π α)} {a : α}
    (sent : feed cap nodes (.send a) = some fed) :
    fed.head?.map Node.closed = nodes.head?.map Node.closed := by
  cases nodes with
  | nil => cases sent
  | cons node nodes =>
    obtain ⟨moved, arrives, rfl⟩ := map_eq_some_iff.1 sent
    simp only [Node.receive] at arrives
    split at arrives
    · cases arrives
      rfl
    · cases arrives

theorem step_returned (returned : ∀ node ∈ nodes, ∃ failed, node.phase = .returned failed) (i : Nat)
    (a : Act) : step proc cap nodes i a = none := by
  induction nodes generalizing i with
  | nil => rfl
  | cons node nodes ih =>
    cases i with
    | zero =>
      obtain ⟨failed, phase⟩ := returned node (by simp)
      have idle : node.act proc a = none := by cases a <;> simp [Node.act, phase]
      simp [step, idle]
    | succ i => simp [step, ih fun n mem => returned n (by simp [mem])]

/-! ## Termination -/

def Node.backlog (node : Node π α) : Nat :=
  node.queue.length + match node.phase with
    | .serve _ => 1
    | .emit _ (.resume _) => 1
    | _ => 0

def Node.burst (node : Node π α) : Nat :=
  match node.phase with
  | .emit pending _ => pending.length + 1
  | _ => 0

/-- The measures of the processors of a chain, in order: a move lowers one and may raise
later ones only. -/
def level : List (Node π α) → Nat → Nat
  | [], _ => 0
  | node :: _, 0 => node.backlog
  | node :: _, 1 => node.burst
  | _ :: rest, k + 2 => level rest k

theorem Acts.lowers {node moved : Node π α} (acts : Acts proc node moved emission) :
    moved.backlog < node.backlog ∨ (moved.backlog = node.backlog ∧ moved.burst < node.burst) := by
  cases acts with
  | take p choice a rest waits first =>
    refine .inl ?_
    cases (proc.react p choice a).next with
    | none =>
      simp only [Node.backlog, waits, first, After.ofNext, length_cons]
      omega
    | some q => simp [Node.backlog, waits, first, After.ofNext]
  | push a rest after sending =>
    refine .inr ⟨?_, by simp [Node.burst, sending]⟩
    cases after <;> simp [Node.backlog, sending]
  | resume p sent | stop failed sent =>
    exact .inr ⟨by simp [Node.backlog, sent], by simp [Node.burst, sent]⟩
  | drain p choice waits empty closed =>
    exact .inl (by simp [Node.backlog, Phase.flushing, waits, empty])
  | expire p choice waits due => exact .inl (by simp [Node.backlog, Phase.flushing, waits])

theorem level_step {after : List (Node π α)} {i : Nat} {a : Act}
    (moves : step proc cap nodes i a = some (after, emission)) : ∃ k < 2 * nodes.length,
    (∀ j < k, level after j = level nodes j) ∧ level after k < level nodes k := by
  induction nodes generalizing i after with
  | nil => simp [step] at moves
  | cons node nodes ih =>
    cases i with
    | zero =>
      have acted : ∃ moved effect rest, node.act proc a = some (moved, effect) ∧
          after = moved :: rest := by
        simp only [step] at moves
        split at moves
        · cases moves
        next moved effect acted =>
          cases moves
          exact ⟨moved, emission, [], acted, rfl⟩
        next moved effect next later acted =>
          simp only [map_eq_some_iff, Prod.mk.injEq] at moves
          obtain ⟨received, -, rfl, -⟩ := moves
          exact ⟨moved, effect, _, acted, rfl⟩
      obtain ⟨moved, effect, rest, acted, rfl⟩ := acted
      rcases (acts_of_act acted).lowers with lower | ⟨same, lower⟩
      · exact ⟨0, by simp, by simp, lower⟩
      · refine ⟨1, by simp only [length_cons]; omega, fun j below => ?_, lower⟩
        obtain rfl : j = 0 := by omega
        exact same
    | succ i =>
      simp only [step, map_eq_some_iff] at moves
      obtain ⟨⟨rest, effect⟩, inner, same⟩ := moves
      cases same
      obtain ⟨k, inside, earlier, lower⟩ := ih inner
      refine ⟨k + 2, by simp only [length_cons]; omega, fun j below => ?_, lower⟩
      match j with
      | 0 => rfl
      | 1 => rfl
      | j + 2 => exact earlier j (by omega)

end Chain
