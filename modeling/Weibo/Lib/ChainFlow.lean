import Weibo.Lib.Complete
import Weibo.Lib.Transducer

/-!
# What flows through a chain

A processor is *paced* when it never expires or fails and the markers it sends depend on the markers
it received only, through `follow`. `Flow` relates what entered and left a chain of paced
processors. One that cannot move has sent all markers its input asks for.
-/

namespace Chain

open List Option

variable {π α : Type}

/-! ## Paced processors -/

section Paced

variable {μ : Type} {marker : α → Bool}

structure Pacing (proc : Processor π α) (marker : α → Bool) (μ : Type) where
  safe : π → Prop
  shadow : π → μ
  follow : μ → α → μ × List α
  patient : ∀ p, safe p → proc.expires p = false
  data : ∀ p choice a, safe p → marker a = false →
    (proc.react p choice a).Meets (fun b => marker b = false)
      fun q => safe q ∧ shadow q = shadow p
  marked : ∀ p choice a, safe p → marker a = true →
    (proc.react p choice a).sends.filter marker = (follow (shadow p) a).2 ∧
      ∃ q, (proc.react p choice a).next = some q ∧ safe q ∧
        shadow q = (follow (shadow p) a).1
  flushed : ∀ p choice, safe p →
    (proc.flush p choice).Meets (fun b => marker b = false) fun _ => True

def Phase.pending : Phase π α → List α
  | .emit pending _ => pending
  | _ => []

def After.state : After π → Option π
  | .resume p => some p
  | .stop _ => none

def Phase.state : Phase π α → Option π
  | .serve p => some p
  | .emit _ after => after.state
  | .returned _ => none

/-- A processor that started in state `origin` received all of `entered` but its queue and has
sent `left`. -/
structure Passes {proc : Processor π α} (pace : Pacing proc marker μ) (origin : π)
    (node : Node π α) (entered left : List α) : Prop where
  safe : pace.safe origin
  /-- What is sent and pending answers what was received; a processor stops after it has
  drained its closed input. -/
  reads : ∃ taken, entered = taken ++ node.queue ∧
    (∀ p, node.phase.state = some p → Runs proc origin taken (left ++ node.phase.pending) p) ∧
    (node.phase.state = none → node.closed = true ∧ node.queue = [] ∧
      Ends proc (fun _ => True) origin taken (left ++ node.phase.pending))
  sound : node.phase ≠ .returned true ∧ ∀ pending, node.phase ≠ .emit pending (.stop true)

def Linked (node : Node π α) : List (Node π α) → Prop
  | [] => True
  | next :: _ => next.closed = true ↔ node.phase = .returned false

def Flow {proc : Processor π α} (pace : Pacing proc marker μ) :
    List π → List (Node π α) → List α → List α → Prop
  | [], [], entered, left => entered = left
  | origin :: origins, node :: nodes, entered, left =>
    ∃ between, Passes pace origin node entered between ∧ Linked node nodes ∧
      Flow pace origins nodes between left
  | _, _, _, _ => False

def asked {proc : Processor π α} (pace : Pacing proc marker μ) : List μ → List α → List α
  | [], markers => markers
  | origin :: origins, markers =>
    asked pace origins (Transducer.outputs pace.follow origin markers)

variable {proc : Processor π α} {pace : Pacing proc marker μ} {origin : π} {origins : List π}
  {node moved : Node π α} {nodes : List (Node π α)} {entered left : List α} {emission : Emission α}
  {cap : Nat}

theorem passes_start {p : π} (safe : pace.safe p) : Passes pace p (Node.start p) [] [] := by
  refine ⟨safe, ⟨[], rfl, fun q same => ?_, by simp [Node.start, Phase.state]⟩,
    by simp [Node.start]⟩
  obtain rfl : p = q := by simpa [Node.start, Phase.state] using same
  exact .nil p

theorem Pacing.reacts (pace : Pacing proc marker μ) {p : π} (choice : Nat) (a : α)
    (safe : pace.safe p) :
    (proc.react p choice a).sends.filter marker =
        Transducer.outputs pace.follow (pace.shadow p) ([a].filter marker) ∧
      ∃ q, (proc.react p choice a).next = some q ∧ pace.safe q ∧
        pace.shadow q = Transducer.final pace.follow (pace.shadow p) ([a].filter marker) := by
  cases kind : marker a with
  | true => simpa [kind] using pace.marked p choice a safe kind
  | false =>
    obtain ⟨sends, q, next, kept, same⟩ := pace.data p choice a safe kind
    refine ⟨?_, q, next, kept, by simpa [kind] using same⟩
    simpa [kind, filter_eq_nil_iff] using sends

theorem Pacing.runs (pace : Pacing proc marker μ) {p q : π} {input output : List α}
    (safe : pace.safe p) (runs : Runs proc p input output q) : output.filter marker =
        Transducer.outputs pace.follow (pace.shadow p) (input.filter marker) ∧ pace.safe q ∧
      pace.shadow q = Transducer.final pace.follow (pace.shadow p) (input.filter marker) := by
  induction runs with
  | nil p => exact ⟨rfl, safe, rfl⟩
  | @cons p q r a rest sends output choice reacts _ ih =>
    obtain ⟨sent, next, goes, kept, shadow⟩ := pace.reacts choice a safe
    rw [reacts] at sent goes
    obtain rfl : q = next := some.inj goes
    obtain ⟨later, safe', final⟩ := ih kept
    rw [← singleton_append, filter_append, filter_append,
      Transducer.outputs_append, Transducer.final_append, ← shadow, ← sent, ← later]
    exact ⟨rfl, safe', final⟩

theorem Passes.markers (passes : Passes pace origin node entered left) :
    ∃ taken, entered = taken ++ node.queue ∧ (left ++ node.phase.pending).filter marker =
      Transducer.outputs pace.follow (pace.shadow origin) (taken.filter marker) := by
  obtain ⟨safe, ⟨taken, whole, runs, ends⟩, -⟩ := passes
  refine ⟨taken, whole, ?_⟩
  cases state : node.phase.state with
  | some p => exact (pace.runs safe (runs p state)).1
  | none =>
    obtain ⟨-, -, ran, q, choice, flushed, last, reads, -, flush, sent⟩ := ends state
    obtain ⟨markers, kept, -⟩ := pace.runs safe reads
    have data := (pace.flushed q choice kept).sends
    rw [flush] at data
    have none : flushed.filter marker = [] := by simpa [filter_eq_nil_iff, Reaction.send] using data
    rw [sent, filter_append, none, append_nil, markers]

theorem Passes.stopped (passes : Passes pace origin node entered left)
    (stopped : node.phase.state = none) : node.closed = true ∧ node.queue = [] := by
  obtain ⟨-, ⟨taken, -, -, ends⟩, -⟩ := passes
  exact ⟨(ends stopped).1, (ends stopped).2.1⟩

theorem Passes.act (passes : Passes pace origin node entered left)
    (acts : Acts proc node moved emission) :
    Passes pace origin moved entered (left ++ emission.sent) := by
  obtain ⟨safe, ⟨taken, whole, runs, ends⟩, sound⟩ := passes
  cases acts with
  | take p choice a rest waits first =>
    have reads := runs p (by simp [waits, Phase.state])
    obtain ⟨-, q, next, -, -⟩ := pace.reacts choice a (pace.runs safe reads).2.1
    refine ⟨safe, ⟨taken ++ [a], by simp [whole, first], fun r same => ?_, ?_⟩, ?_⟩
    · obtain rfl : q = r := by simpa [next, After.ofNext, Phase.state, After.state] using same
      have longer := reads.append (.cons choice (Reaction.eq_send next) (.nil q))
      simpa [waits, Phase.pending, Emission.sent] using longer
    · simp [next, After.ofNext, Phase.state, After.state]
    · simp [next, After.ofNext]
  | push a rest after sending =>
    refine ⟨safe, ⟨taken, whole, ?_, ?_⟩, ?_⟩
    · simpa [sending, Phase.state, Phase.pending, Emission.sent] using runs
    · simpa [sending, Phase.state, Phase.pending, Emission.sent] using ends
    · simpa [sending] using sound
  | resume p sent =>
    refine ⟨safe, ⟨taken, whole, ?_, ?_⟩, ?_⟩
    · simpa [sent, Phase.state, After.state, Phase.pending, Emission.sent] using runs
    · simp [Phase.state]
    · simp
  | stop failed sent =>
    refine ⟨safe, ⟨taken, whole, ?_, ?_⟩, ?_⟩
    · simp [Phase.state]
    · simpa [sent, Phase.state, After.state, Phase.pending, Emission.sent] using ends
    · simpa [sent] using sound
  | drain p choice waits empty closed =>
    have reads := runs p (by simp [waits, Phase.state])
    obtain ⟨-, q, next, -⟩ := pace.flushed p choice (pace.runs safe reads).2.1
    refine ⟨safe, ⟨taken, by simpa [empty] using whole, ?_, fun _ => ⟨rfl, rfl, ?_⟩⟩, ?_⟩
    · simp [Phase.flushing, Phase.state, After.state]
    · refine ⟨left, p, choice, _, q, ?_, trivial, Reaction.eq_send next, ?_⟩
      · simpa [waits, Phase.pending] using reads
      · simp [Phase.flushing, Phase.pending, Emission.sent]
    · simp [Phase.flushing, next]
  | expire p choice waits due =>
    have reads := runs p (by simp [waits, Phase.state])
    simp [pace.patient p (pace.runs safe reads).2.1] at due

theorem Passes.receive (passes : Passes pace origin node entered left) (opened : ∀ a,
    emission = .send a → node.closed = false) (arrives : node.receive cap emission = some moved) :
    Passes pace origin moved (entered ++ emission.sent) left ∧ moved.phase = node.phase := by
  obtain ⟨safe, ⟨taken, whole, runs, ends⟩, sound⟩ := passes
  cases emission with
  | silent =>
    cases arrives
    exact ⟨⟨safe, ⟨taken, by simpa [Emission.sent] using whole, runs, ends⟩, sound⟩, rfl⟩
  | send a =>
    simp only [Node.receive] at arrives
    split at arrives
    · cases arrives
      refine ⟨⟨safe, ⟨taken, by simp [whole, Emission.sent], runs, fun none => ?_⟩, sound⟩, rfl⟩
      simpa [opened a rfl] using (ends none).1
    · cases arrives
  | close =>
    cases arrives
    exact ⟨⟨safe, ⟨taken, by simpa [Emission.sent] using whole, runs,
      fun none => ⟨rfl, (ends none).2⟩⟩, sound⟩, rfl⟩

theorem Flow.nil (flow : Flow pace origins [] entered left) : origins = [] ∧ entered = left := by
  cases origins with
  | nil => exact ⟨rfl, flow⟩
  | cons _ _ => simp [Flow] at flow

theorem Flow.cons (flow : Flow pace origins (node :: nodes) entered left) :
    ∃ origin rest, origins = origin :: rest ∧ ∃ between, Passes pace origin node entered between ∧
      Linked node nodes ∧ Flow pace rest nodes between left := by
  cases origins with
  | nil => simp [Flow] at flow
  | cons origin rest => exact ⟨origin, rest, rfl, flow⟩

theorem Flow.feed (flow : Flow pace origins nodes entered left) {fed : List (Node π α)}
    (opened : ∀ a, emission = .send a → ∀ node ∈ nodes.head?, node.closed = false)
    (sent : Chain.feed cap nodes emission = some fed) :
    Flow pace origins fed (entered ++ emission.sent) left := by
  cases origins with
  | nil => cases nodes <;> simp_all [Flow, Chain.feed]
  | cons origin origins =>
    cases nodes with
    | nil => simp [Flow] at flow
    | cons node nodes =>
      obtain ⟨between, passes, linked, flow⟩ := flow
      simp only [Chain.feed, map_eq_some_iff] at sent
      obtain ⟨moved, arrives, rfl⟩ := sent
      obtain ⟨received, same⟩ := passes.receive (fun a sends => opened a sends node rfl) arrives
      refine ⟨between, received, ?_, flow⟩
      cases nodes with
      | nil => trivial
      | cons next later => simpa [Linked, same] using linked

theorem Acts.linked (acts : Acts proc node moved emission) {next received : Node π α}
    (sound : node.phase ≠ .returned true ∧ ∀ pending, node.phase ≠ .emit pending (.stop true))
    (linked : Linked node (next :: nodes)) (arrives : next.receive cap emission = some received) :
    Linked moved (received :: nodes) := by
  cases acts with
  | take p choice a rest waits first =>
    cases arrives
    simpa [Linked, waits] using linked
  | push a rest after sending =>
    simp only [Node.receive] at arrives
    split at arrives
    · cases arrives
      simpa [Linked, sending] using linked
    · cases arrives
  | resume p sent =>
    cases arrives
    simpa [Linked, sent] using linked
  | stop failed sent =>
    cases arrives
    cases failed with
    | true => exact absurd sent (sound.2 [])
    | false => simp [Linked]
  | drain p choice waits empty closed | expire p choice waits due =>
    cases arrives
    simpa [Linked, Phase.flushing, waits] using linked

theorem Flow.step (flow : Flow pace origins nodes entered left) {i : Nat} {a : Act}
    {after : List (Node π α)} (moves : Chain.step proc cap nodes i a = some (after, emission)) :
    Flow pace origins after entered (left ++ emission.sent) ∧
      after.head?.map Node.closed = nodes.head?.map Node.closed := by
  induction nodes generalizing i origins entered after with
  | nil => simp [Chain.step] at moves
  | cons node nodes ih =>
    obtain _ | ⟨origin, origins⟩ := origins
    · simp [Flow] at flow
    obtain ⟨between, passes, linked, flow⟩ := flow
    cases i with
    | zero =>
      simp only [Chain.step] at moves
      split at moves
      · cases moves
      next moved effect acted =>
        cases moves
        have acts := acts_of_act acted
        refine ⟨?_, by cases acts <;> simp [*]⟩
        obtain _ | ⟨_, _⟩ := origins
        · obtain rfl : between = left := flow
          exact ⟨_, passes.act acts, trivial, rfl⟩
        · simp [Flow] at flow
      next moved effect next later acted =>
        simp only [map_eq_some_iff, Prod.mk.injEq] at moves
        obtain ⟨received, arrives, rfl, rfl⟩ := moves
        have acts := acts_of_act acted
        refine ⟨?_, by cases acts <;> simp [*]⟩
        have opened : ∀ a, effect = .send a → ∀ n ∈ (next :: later).head?, n.closed = false := by
          rintro a rfl n same
          cases same
          cases acts with
          | push _ _ _ sending => simpa [Linked, sending] using linked
        have tail := flow.feed opened (show Chain.feed cap (next :: later) effect =
          some (received :: later) by simp [Chain.feed, arrives])
        exact ⟨_, passes.act acts, acts.linked passes.sound linked arrives, by
          simpa [Emission.sent] using tail⟩
    | succ i =>
      simp only [Chain.step, map_eq_some_iff] at moves
      obtain ⟨⟨rest, effect⟩, inner, same⟩ := moves
      cases same
      obtain ⟨flow, closed⟩ := ih flow inner
      refine ⟨⟨between, passes, ?_, flow⟩, rfl⟩
      cases nodes with
      | nil => simp [Chain.step] at inner
      | cons next later =>
        cases rest with
        | nil => simp at closed
        | cons moved rest =>
          simp only [List.head?_cons, map_some, some.injEq] at closed
          simpa [Linked, closed] using linked

/-! ## Chains at rest -/

theorem asked_mono {shadows : List μ} {first second : List α} (longer : first <+: second) :
    asked pace shadows first <+: asked pace shadows second := by
  induction shadows generalizing first second with
  | nil => exact longer
  | cons shadow shadows ih =>
    obtain ⟨rest, rfl⟩ := longer
    refine ih ?_
    rw [Transducer.outputs_append]
    exact prefix_append _ _

theorem Flow.markers_initial (flow : Flow pace origins nodes entered left) :
    left.filter marker <+: asked pace (origins.map pace.shadow) (entered.filter marker) := by
  induction nodes generalizing origins entered with
  | nil =>
    obtain ⟨rfl, same⟩ := flow.nil
    exact same ▸ prefix_rfl
  | cons node nodes ih =>
    obtain ⟨origin, origins, rfl, between, passes, -, flow⟩ := flow.cons
    obtain ⟨taken, whole, markers⟩ := passes.markers
    refine (ih flow).trans (asked_mono ?_)
    rw [whole, filter_append, Transducer.outputs_append, ← markers, filter_append,
      append_assoc]
    exact prefix_append _ _

structure Rests (node : Node π α) : Prop where
  empty : node.queue = []
  waits : node.closed = false → ∃ p, node.phase = .serve p
  stopped : node.closed = true → node.phase = .returned false

theorem Rests.pending (rests : Rests node) : node.phase.pending = [] := by
  cases closed : node.closed with
  | false =>
    obtain ⟨p, waits⟩ := rests.waits closed
    simp [waits, Phase.pending]
  | true => simp [rests.stopped closed, Phase.pending]

theorem Passes.rests (passes : Passes pace origin node entered left) (room : 0 < cap)
    (empty : ∀ next ∈ nodes.head?, next.queue = [])
    (stuck : ∀ a, Chain.step proc cap (node :: nodes) 0 a = none) : Rests node := by
  have idle : ∀ a, node.act proc a = none := by
    intro a
    have blocked := stuck a
    cases acted : node.act proc a with
    | none => rfl
    | some result =>
      exfalso
      obtain ⟨moved, effect⟩ := result
      cases nodes with
      | nil => simp [Chain.step, acted] at blocked
      | cons next later =>
        cases effect <;>
          simp [Chain.step, acted, Node.receive, empty next rfl, Nat.not_le.2 room] at blocked
  cases phase : node.phase with
  | serve p =>
    have drained : node.queue = [] := by
      cases queue : node.queue with
      | nil => rfl
      | cons a rest =>
        have blocked := idle (.take 0)
        simp [Node.act, phase, queue] at blocked
    refine ⟨drained, fun _ => ⟨p, phase⟩, fun closed => ?_⟩
    have blocked := idle (.drain 0)
    simp [Node.act, phase, drained, closed] at blocked
  | emit pending after =>
    exfalso
    cases pending with
    | cons a rest =>
      have blocked := idle .push
      simp [Node.act, phase] at blocked
    | nil =>
      have blocked := idle .settle
      cases after <;> simp [Node.act, phase] at blocked
  | returned failed =>
    cases failed with
    | true => exact absurd phase passes.sound.1
    | false =>
      obtain ⟨closed, drained⟩ := passes.stopped (by simp [phase, Phase.state])
      exact ⟨drained, fun opened => by simp [closed] at opened, fun _ => phase⟩

theorem Flow.rests (flow : Flow pace origins nodes entered left) (room : 0 < cap)
    (stuck : ∀ i a, Chain.step proc cap nodes i a = none) : (∀ node ∈ nodes, Rests node) ∧
      left.filter marker = asked pace (origins.map pace.shadow) (entered.filter marker) := by
  induction nodes generalizing origins entered with
  | nil =>
    obtain ⟨rfl, same⟩ := flow.nil
    exact ⟨by simp, same ▸ rfl⟩
  | cons node nodes ih =>
    obtain ⟨origin, origins, rfl, between, passes, -, flow⟩ := flow.cons
    obtain ⟨rest, sent⟩ := ih flow fun i a => by simpa [Chain.step] using stuck (i + 1) a
    have first : Rests node := passes.rests room
      (fun next mem => (rest next (mem_of_mem_head? mem)).empty) (stuck 0)
    obtain ⟨taken, whole, markers⟩ := passes.markers
    refine ⟨by simpa using ⟨first, rest⟩, ?_⟩
    rw [sent, map_cons, asked, whole, first.empty, append_nil, ← markers, first.pending,
      append_nil]

theorem Flow.closed_eq (flow : Flow pace origins nodes entered left)
    (rests : ∀ node ∈ nodes, Rests node) {closed : Bool} (first : ∀ node ∈ nodes.head?,
    node.closed = closed) : ∀ node ∈ nodes, node.closed = closed := by
  induction nodes generalizing origins entered with
  | nil => simp
  | cons node nodes ih =>
    obtain ⟨origin, origins, rfl, between, -, linked, flow⟩ := flow.cons
    have same : node.closed = closed := first node rfl
    have here := rests node (by simp)
    have next : ∀ n ∈ nodes.head?, n.closed = closed := by
      intro n mem
      cases nodes with
      | nil => simp at mem
      | cons m later =>
        cases mem
        simp only [Linked] at linked
        cases closed with
        | true => exact linked.2 (here.stopped same)
        | false =>
          obtain ⟨p, waits⟩ := here.waits same
          simpa [waits] using linked
    simpa using ⟨same, ih flow (fun n mem => rests n (by simp [mem])) next⟩

theorem Flow.returned (flow : Flow pace origins nodes entered left)
    (last : ∀ node ∈ nodes.getLast?, ∃ failed, node.phase = .returned failed) :
    ∀ node ∈ nodes, node.phase = .returned false := by
  induction nodes generalizing origins entered with
  | nil => simp
  | cons node nodes ih =>
    obtain ⟨origin, origins, rfl, between, passes, linked, flow⟩ := flow.cons
    cases nodes with
    | nil =>
      obtain ⟨failed, phase⟩ := last node rfl
      cases failed with
      | true => exact absurd phase passes.sound.1
      | false => simpa using phase
    | cons next later =>
      have rest := ih flow fun n mem => last n (by simpa [List.getLast?_cons_cons] using mem)
      obtain _ | ⟨_, _⟩ := origins
      · simp [Flow] at flow
      obtain ⟨_, ahead, -, -⟩ := flow
      have closed : next.closed = true :=
        (ahead.stopped (by simp [rest next (by simp), Phase.state])).1
      simpa using ⟨linked.1 closed, by simpa using rest⟩

theorem Flow.length_eq
    (flow : Flow pace origins nodes entered left) : nodes.length = origins.length := by
  induction nodes generalizing origins entered with
  | nil => cases origins <;> simp_all [Flow]
  | cons node nodes ih =>
    obtain ⟨origin, origins, rfl, between, -, -, flow⟩ := flow.cons
    simp [ih flow]

theorem flow_start {ps : List π} (safe : ∀ p ∈ ps, pace.safe p) :
    Flow pace ps (ps.map Node.start) [] [] := by
  induction ps with
  | nil => rfl
  | cons p ps ih =>
    refine ⟨[], passes_start (safe p (by simp)), ?_, ih fun q mem => safe q (by simp [mem])⟩
    cases ps <;> simp [Linked, Node.start]

theorem Flow.head_closed (flow : Flow pace origins nodes entered left)
    (returned : ∀ node ∈ nodes, node.phase = .returned false) :
    ∀ node ∈ nodes.head?, node.closed = true := by
  cases nodes with
  | nil => simp
  | cons node nodes =>
    obtain ⟨origin, origins, rfl, between, passes, -, -⟩ := flow.cons
    have stopped := passes.stopped (by simp [returned node (by simp), Phase.state])
    simpa using stopped.1

theorem Flow.completes (flow : Flow pace origins nodes entered left)
    (returned : ∀ node ∈ nodes, node.phase = .returned false) :
    Completes proc (fun _ => True) origins entered left := by
  induction nodes generalizing origins entered with
  | nil =>
    obtain ⟨rfl, same⟩ := flow.nil
    exact same.symm
  | cons node nodes ih =>
    obtain ⟨origin, origins, rfl, between, ⟨-, ⟨taken, whole, -, ends⟩, -⟩, -, flow⟩ := flow.cons
    have phase := returned node (by simp)
    obtain ⟨-, empty, ends⟩ := ends (by simp [phase, Phase.state])
    refine ⟨between, ?_, ih flow fun n mem => returned n (by simp [mem])⟩
    simpa [whole, empty, phase, Phase.pending] using ends

end Paced

end Chain

