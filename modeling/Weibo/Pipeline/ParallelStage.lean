import Weibo.Pipeline.KeyedStage
import Weibo.Pipeline.MergeRuns

/-!
# Stages with several workers

A `Layout` says how the records that enter a stage reach its `n` workers and what the goroutines of
a worker do; `alignedMerge` brings the outputs together. The keyed stage and the parallel form of
the stateless stage are such layouts.
-/

namespace Weibo.Pipeline

open List Option Function

open Chain (Node Act Emission Flow)
open KeyedStage (absorb)
open Transition (Reach Always Stuck of_ite_none)
open Record (isMarker)

/-- How the records that enter a stage reach its workers and what the workers do. `γ` is what
the router remembers from one record to the next. -/
structure Layout (π γ : Type) (n : Nat) where
  proc : Chain.Processor π Record
  route : γ → Record → Router n × γ
  /-- What a worker learns from its goroutines when its output has ended: `none` while it has
  to wait, else whether one of them failed. -/
  errs : List (Node π Record) → Option Bool
  broadcasts : ∀ cursor r, r.isMarker = true → (route cursor r).1 = .send r (finRange n)
  directs : ∀ cursor r, r.isMarker = false →
    ∃ q w, (route cursor r).1 = .send q [w] ∧ q.isMarker = false
  settles : ∀ nodes : List (Node π Record), (∀ node ∈ nodes, node.phase = .returned false) →
    errs nodes = some false

section Layout

variable {π γ : Type} {n : Nat} (layout : Layout π γ n)

def Layout.routed (layout : Layout π γ n) (w : Fin n) : γ → List Record → List Record
  | _, [] => []
  | cursor, r :: rest =>
    (layout.route cursor r).1.owed w ++ layout.routed w (layout.route cursor r).2 rest

def Layout.after (cursor : γ) (records : List Record) : γ :=
  records.foldl (fun cursor r => (layout.route cursor r).2) cursor

theorem Layout.routed_append (w : Fin n) (cursor : γ) (first second : List Record) :
    layout.routed w cursor (first ++ second) =
      layout.routed w cursor first ++ layout.routed w (layout.after cursor first) second := by
  induction first generalizing cursor with
  | nil => rfl
  | cons r rest ih =>
    rw [cons_append, routed, ih, routed, append_assoc]
    rfl

theorem Layout.route_sends (cursor : γ) (r : Record) :
    ∃ q targets, (layout.route cursor r).1 = .send q targets ∧ targets.Nodup := by
  cases kind : r.isMarker with
  | true => exact ⟨r, _, layout.broadcasts cursor r kind, nodup_finRange n⟩
  | false =>
    obtain ⟨q, w, sends, -⟩ := layout.directs cursor r kind
    exact ⟨q, [w], sends, nodup_singleton w⟩

theorem Layout.routed_markers (w : Fin n) (cursor : γ) (records : List Record) :
    (layout.routed w cursor records).filter isMarker = records.filter isMarker := by
  induction records generalizing cursor with
  | nil => rfl
  | cons r rest ih =>
    rw [routed, filter_append, ih]
    cases kind : r.isMarker with
    | true => simp [layout.broadcasts cursor r kind, Router.owed, kind]
    | false =>
      obtain ⟨q, v, sends, data⟩ := layout.directs cursor r kind
      have owed : ((layout.route cursor r).1.owed w).filter isMarker = [] := by
        simp [sends, Router.owed, filter_eq_nil_iff, data]
      simp [owed, kind]

end Layout

structure Parallel (π γ : Type) (n : Nat) where
  input : List Record
  inputClosed : Bool
  router : Router n
  cursor : γ
  chains : Fin n → List (Node π Record)
  merge : Merge n
  cancelled : Bool
  fed : List Record

namespace Parallel

def start {π γ : Type} {n : Nat} (origins : Fin n → List π) (cursor : γ) : Parallel π γ n where
  input := []
  inputClosed := false
  router := .receive
  cursor := cursor
  chains w := (origins w).map Node.start
  merge := .start
  cancelled := false
  fed := []

def move {π γ : Type} {n : Nat} (layout : Layout π γ n) (s : Parallel π γ n) :
    KeyedMove n → Option (Parallel π γ n)
  | .receive =>
    match s.cancelled, s.router, s.input with
    | false, .receive, r :: rest =>
      some { s with
        input := rest
        router := (layout.route s.cursor r).1
        cursor := (layout.route s.cursor r).2 }
    | _, _, _ => none
  | .dispatch =>
    match s.cancelled, s.router with
    | false, .send r (w :: rest) =>
      (Chain.feed internalBuf (s.chains w) (.send r)).map fun chain =>
        { s with router := .send r rest, chains := update s.chains w chain }
    | false, .send _ [] => some { s with router := .receive }
    | _, _ => none
  | .close =>
    match s.cancelled, s.router, s.input, s.inputClosed with
    | false, .receive, [], true =>
      some { s with
        router := .returned
        chains := fun w => (Chain.feed internalBuf (s.chains w) .close).getD (s.chains w) }
    | _, _, _, _ => none
  | .worker w position act =>
    match s.cancelled, Chain.step layout.proc internalBuf (s.chains w) position act with
    | false, some (chain, emission) =>
      (absorb s.merge w emission).map fun m =>
        { s with chains := update s.chains w chain, merge := m }
    | _, _ => none
  | .finish w =>
    match s.cancelled, s.merge.closed w, (s.chains w).getLast?.map Node.phase with
    | false, false, some (.returned _) =>
      (layout.errs (s.chains w)).map fun failed =>
        if failed then { s with cancelled := true } else { s with merge := s.merge.close w }
    | _, _, _ => none
  | .merge a =>
    if s.cancelled then none else (s.merge.step a).map fun m => { s with merge := m }

def step {π γ : Type} {n : Nat} (layout : Layout π γ n) (s : Parallel π γ n) :
    KeyedAction n → Option (Parallel π γ n)
  | .feed r =>
    if s.inputClosed then none else some { s with input := s.input ++ [r], fed := s.fed ++ [r] }
  | .closeInput => if s.inputClosed then none else some { s with inputClosed := true }
  | .move m => s.move layout m

end Parallel

structure Crew {π γ μ : Type} {n : Nat} (layout : Layout π γ n)
    (pace : Chain.Pacing layout.proc isMarker μ) where
  origins : Fin n → List π
  cursor : γ
  shadows : List μ
  uniform : ∀ w, (origins w).map pace.shadow = shadows
  filled : ∀ w, origins w ≠ []
  safe : ∀ w, ∀ p ∈ origins w, pace.safe p

namespace Parallel

variable {π γ μ : Type} {n : Nat} {layout : Layout π γ n}
  {pace : Chain.Pacing layout.proc isMarker μ} {crew : Crew layout pace}
  {s t : Parallel π γ n}

structure Inv (crew : Crew layout pace) (s : Parallel π γ n) : Prop where
  running : s.cancelled = false
  /-- Every worker received what is routed to it but the record the router holds, and its
  output answers it. -/
  flow : ∃ entered left : Fin n → List Record, s.merge.AlignedAt left ∧
    (∀ w, Flow pace (crew.origins w) (s.chains w) (entered w) (left w)) ∧
    ∀ w, layout.routed w crew.cursor s.fed =
      entered w ++ s.router.owed w ++ layout.routed w s.cursor s.input
  targets : ∀ r targets, s.router = .send r targets → targets.Nodup
  heads : ∀ w, (s.chains w).head?.map Node.closed = some (decide (s.router = .returned))
  ended : ∀ w, s.merge.closed w = true → ∀ node ∈ s.chains w, node.phase = .returned false
  consumed : s.router = .returned → s.input = [] ∧ s.inputClosed = true
  cursor : layout.after crew.cursor s.fed = layout.after s.cursor s.input

theorem inv_start [NeZero n] : Inv crew (start crew.origins crew.cursor) := by
  refine ⟨rfl, ⟨fun _ => [], fun _ => [], Merge.aligned_start (NeZero.pos n), fun w => ?_, ?_⟩,
    ?_, fun w => ?_, ?_, ?_, rfl⟩
  · exact Chain.flow_start (crew.safe w)
  · simp [start, Router.owed, Layout.routed]
  · simp [start]
  · cases origins : crew.origins w with
    | nil => exact absurd origins (crew.filled w)
    | cons p rest => simp [start, origins, Node.start]
  · simp [start, Merge.start]
  · simp [start]

variable {entered : Fin n → List Record}

theorem received_markers (received : ∀ w, layout.routed w crew.cursor s.fed =
      entered w ++ s.router.owed w ++ layout.routed w s.cursor s.input) (w : Fin n) :
    s.fed.filter isMarker = (entered w).filter isMarker ++
      (s.router.owed w).filter isMarker ++ s.input.filter isMarker := by
  have markers := congrArg (filter isMarker) (received w)
  simpa [Layout.routed_markers] using markers

theorem markers_left {left : Fin n → List Record}
    (flow : ∀ w, Flow pace (crew.origins w) (s.chains w) (entered w) (left w))
    (received : ∀ w, layout.routed w crew.cursor s.fed =
      entered w ++ s.router.owed w ++ layout.routed w s.cursor s.input) (w : Fin n) :
    (left w).filter isMarker <+: Chain.asked pace crew.shadows (s.fed.filter isMarker) := by
  have sent := (flow w).markers_initial
  rw [crew.uniform w] at sent
  refine sent.trans (Chain.asked_mono ?_)
  rw [received_markers received w, append_assoc]
  exact prefix_append _ _

theorem inv_receive (inv : Inv crew s) (moves : s.move layout .receive = some t) : Inv crew t := by
  simp only [move] at moves
  split at moves
  next r rest _ idle first =>
    cases moves
    obtain ⟨entered, left, aligned, flow, received⟩ := inv.flow
    obtain ⟨q, targets, sends, distinct⟩ := layout.route_sends s.cursor r
    refine ⟨inv.running, ⟨entered, left, aligned, flow, fun w => ?_⟩, fun r' others same => ?_,
      fun w => ?_, inv.ended, fun returned => by simp [sends] at returned, ?_⟩
    · simpa [idle, Router.owed, first, Layout.routed] using received w
    · simp only [sends, Router.send.injEq] at same
      exact same.2 ▸ distinct
    · simpa [idle, sends] using inv.heads w
    · simpa [first, Layout.after] using inv.cursor
  · cases moves

theorem inv_dispatch (inv : Inv crew s)
    (moves : s.move layout .dispatch = some t) : Inv crew t := by
  simp only [move] at moves
  obtain ⟨entered, left, aligned, flow, received⟩ := inv.flow
  split at moves
  next r w rest _ sending =>
    obtain ⟨chain, fed, rfl⟩ := map_eq_some_iff.1 moves
    have distinct : (w :: rest).Nodup := inv.targets r _ sending
    have head := inv.heads w
    have opened : ∀ a, (.send r : Emission Record) = .send a → ∀ node ∈ (s.chains w).head?,
        node.closed = false := by
      intro a _ node first
      simpa [mem_def.1 first, sending] using head
    have entering := (flow w).feed opened fed
    refine ⟨inv.running, ⟨update entered w (entered w ++ [r]), left, aligned, fun v => ?_,
      fun v => ?_⟩, fun r' targets same => ?_, fun v => ?_, fun v closed => ?_, by simp, inv.cursor⟩
    · by_cases same : v = w
      · subst same
        simpa [Emission.sent] using entering
      · simpa [same] using flow v
    · rw [received v]
      by_cases same : v = w
      · subst same
        have fresh : v ∉ rest := (nodup_cons.1 distinct).1
        simp [sending, Router.owed, fresh]
      · simp [sending, Router.owed, same]
    · simp only [Router.send.injEq] at same
      exact same.2 ▸ (nodup_cons.1 distinct).2
    · by_cases same : v = w
      · subst same
        simpa [Chain.feed_send_closed fed, sending] using head
      · simpa [same, sending] using inv.heads v
    · by_cases same : v = w
      · subst same
        simpa [← Chain.feed_phase fed] using
          (forall_mem_map (f := Node.phase) (P := (· = .returned false))).2 (inv.ended v closed)
      · simpa [same] using inv.ended v closed
  next r _ sending =>
    cases moves
    refine ⟨inv.running, ⟨entered, left, aligned, flow, fun w => ?_⟩, by simp, fun w => ?_,
      inv.ended, by simp, inv.cursor⟩
    · simpa [sending, Router.owed] using received w
    · simpa [sending] using inv.heads w
  · cases moves

theorem inv_close (inv : Inv crew s) (moves : s.move layout .close = some t) : Inv crew t := by
  simp only [move] at moves
  obtain ⟨entered, left, aligned, flow, received⟩ := inv.flow
  split at moves
  next _ idle drained ended =>
    cases moves
    have closing : ∀ w, ∃ node rest, s.chains w = node :: rest ∧
        Chain.feed internalBuf (s.chains w) .close =
          some ({ node with closed := true } :: rest) := by
      intro w
      have head := inv.heads w
      cases chain : s.chains w with
      | nil => simp [chain] at head
      | cons node rest => exact ⟨node, rest, rfl, rfl⟩
    refine ⟨inv.running, ⟨entered, left, aligned, fun w => ?_, fun w => ?_⟩, by simp, fun w => ?_,
      fun w closed => ?_, fun _ => ⟨drained, ended⟩, inv.cursor⟩
    · obtain ⟨node, rest, -, fed⟩ := closing w
      simpa [fed, Emission.sent] using (flow w).feed (by simp) fed
    · simpa [idle, Router.owed] using received w
    · obtain ⟨node, rest, -, fed⟩ := closing w
      simp [fed]
    · obtain ⟨node, rest, chain, fed⟩ := closing w
      have stopped := inv.ended w closed
      rw [chain] at stopped
      simpa [fed] using stopped
  · cases moves

variable {w : Fin n}

theorem inv_worker (inv : Inv crew s) {i : Nat} {a : Act}
    (moves : s.move layout (.worker w i a) = some t) : Inv crew t := by
  simp only [move] at moves
  obtain ⟨entered, left, aligned, flow, received⟩ := inv.flow
  split at moves
  next chain emission _ stepped =>
    obtain ⟨m, absorbed, rfl⟩ := map_eq_some_iff.1 moves
    have running : s.merge.closed w = false := by
      cases closed : s.merge.closed w with
      | false => rfl
      | true =>
        have idle : Chain.step layout.proc internalBuf (s.chains w) i a = none :=
          Chain.step_returned (fun node mem => ⟨false, inv.ended w closed node mem⟩) i a
        cases idle.symm.trans stepped
    obtain ⟨moved, head⟩ := (flow w).step stepped
    have merged : m.AlignedAt (update left w (left w ++ emission.sent)) ∧
        m.closed = s.merge.closed := by
      cases emission with
      | send r => exact ⟨Merge.aligned_offer aligned running absorbed, Merge.offer_closed absorbed⟩
      | silent | close =>
        cases absorbed
        exact ⟨by simpa [Emission.sent] using aligned, rfl⟩
    refine { inv with
      flow := ⟨entered, _, merged.1, fun v => ?_, received⟩, heads := fun v => ?_
      ended := fun v closed => ?_ }
    · by_cases same : v = w
      · subst same
        simpa using moved
      · simpa [same] using flow v
    · by_cases same : v = w
      · subst same
        simpa [head] using inv.heads v
      · simpa [same] using inv.heads v
    · have other : v ≠ w := by
        rintro rfl
        simp [merged.2, running] at closed
      simpa [other] using inv.ended v (merged.2 ▸ closed)
  · cases moves

theorem inv_finish (inv : Inv crew s) (moves : s.move layout (.finish w) = some t) :
    Inv crew t ∧ s.merge.closed w = false ∧ t = { s with merge := s.merge.close w } := by
  simp only [move] at moves
  obtain ⟨entered, left, aligned, flow, received⟩ := inv.flow
  split at moves
  next failed _ running last =>
    have returned : ∀ node ∈ s.chains w, node.phase = .returned false := by
      refine (flow w).returned fun node mem => ?_
      rw [mem_def.1 mem] at last
      exact ⟨failed, by simpa using last⟩
    rw [layout.settles _ returned] at moves
    cases moves
    refine ⟨⟨inv.running, ⟨entered, left, Merge.aligned_close w aligned, flow, received⟩,
      inv.targets, inv.heads, fun v closed => ?_, inv.consumed, inv.cursor⟩, running, rfl⟩
    by_cases same : v = w
    · exact same ▸ returned
    · exact inv.ended v (by simpa [Merge.close, same] using closed)
  · cases moves

theorem inv_merge [NeZero n] (inv : Inv crew s) {a : MergeAction n}
    (moves : s.move layout (.merge a) = some t) :
    Inv crew t ∧ ∃ m, s.merge.Move m ∧ t = { s with merge := m } := by
  simp only [move] at moves
  rw [if_neg (by simp [inv.running])] at moves
  obtain ⟨m, stepped, rfl⟩ := map_eq_some_iff.1 moves
  obtain ⟨entered, left, aligned, flow, received⟩ := inv.flow
  have moved := Merge.move_of_step stepped
  have kept := Merge.aligned_move (NeZero.pos n) aligned (markers_left flow received) moved
  refine ⟨⟨inv.running, ⟨entered, left, kept, flow, received⟩, inv.targets, inv.heads,
    fun v closed => ?_, inv.consumed, inv.cursor⟩, m, moved, rfl⟩
  exact inv.ended v (Fed.closed_move moved ▸ closed)

variable {a : KeyedMove n}

theorem inv_move [NeZero n] (inv : Inv crew s) (moves : s.move layout a = some t) : Inv crew t := by
  cases a with
  | receive => exact inv_receive inv moves
  | dispatch => exact inv_dispatch inv moves
  | close => exact inv_close inv moves
  | worker w i a => exact inv_worker inv moves
  | finish w => exact (inv_finish inv moves).1
  | merge a => exact (inv_merge inv moves).1

theorem inv_step [NeZero n] (inv : Inv crew s) {a : KeyedAction n}
    (moves : s.step layout a = some t) : Inv crew t := by
  cases a with
  | move m => exact inv_move inv moves
  | feed r =>
    obtain ⟨opened, rfl⟩ := Transition.of_ite_none moves
    obtain ⟨entered, left, aligned, flow, received⟩ := inv.flow
    refine { inv with
      flow := ⟨entered, left, aligned, flow, fun w => ?_⟩,
      consumed := fun returned => absurd (inv.consumed returned).2 opened, cursor := ?_ }
    · rw [layout.routed_append, received w, layout.routed_append, inv.cursor, append_assoc _ _
        (layout.routed w _ [r])]
    · have same := inv.cursor
      simp only [Layout.after, foldl_append] at same ⊢
      rw [same]
  | closeInput =>
    simp only [step] at moves
    obtain ⟨-, rfl⟩ := of_ite_none moves
    exact { inv with consumed := fun returned => ⟨(inv.consumed returned).1, rfl⟩ }

/-! ## States in which nothing moves -/

/-- Nothing that entered the stage is still on its way, and after the end of the input every
goroutine has returned. -/
structure Delivered (s : Parallel π γ n) : Prop where
  input : s.input = []
  router : s.router = .receive ∨ s.router = .returned
  workers : ∀ w, ∀ node ∈ s.chains w, node.queue = [] ∧ node.phase.pending = []
  outputs : ∀ w, s.merge.workerOuts w = [] ∧ Merge.held (s.merge.fan w) = []
  fanIn : s.merge.fanIn = []
  merge : (s.merge.loop = .receive ∧ s.merge.arrived = 0) ∨ s.merge.loop = .returned
  returned : s.inputClosed = true → s.router = .returned ∧ s.merge.loop = .returned ∧
    ∀ w, s.merge.closed w = true

theorem Inv.worker_rests (inv : Inv crew s) (stuck : Stuck (move layout) s)
    (empty : s.merge.workerOuts w = []) {entered left : List Record}
    (flow : Flow pace (crew.origins w) (s.chains w) entered left) :
    (∀ node ∈ s.chains w, Chain.Rests node) ∧ left.filter isMarker =
      Chain.asked pace crew.shadows (entered.filter isMarker) := by
  rw [← crew.uniform w]
  refine flow.rests (by decide : 0 < internalBuf) fun i a => ?_
  cases stepped : Chain.step layout.proc internalBuf (s.chains w) i a with
  | none => rfl
  | some result =>
    obtain ⟨chain, emission⟩ := result
    have blocked := stuck (.worker w i a)
    simp only [move, inv.running, stepped, map_eq_none_iff] at blocked
    cases emission <;> simp [absorb, Merge.offer, empty, internalBuf] at blocked

theorem Inv.router_blocked (inv : Inv crew s) (stuck : Stuck (move layout) s) {r : Record}
    {targets : List (Fin n)} (sending : s.router = .send r targets) :
    ∃ w rest, targets = w :: rest ∧ ∃ node ∈ s.chains w, node.queue ≠ [] := by
  have blocked := stuck .dispatch
  cases targets with
  | nil => simp [move, inv.running, sending] at blocked
  | cons w rest =>
    refine ⟨w, rest, rfl, ?_⟩
    simp only [move, inv.running, sending, map_eq_none_iff] at blocked
    cases chain : s.chains w with
    | nil =>
      have head := inv.heads w
      simp [chain] at head
    | cons node nodes =>
      refine ⟨node, by simp, fun empty => ?_⟩
      simp [chain, Chain.feed, Node.receive, empty, internalBuf] at blocked

variable {m : Merge n} {counted : Finset (Fin n)} {next : Record}

theorem free_output {hist : Fin n → List Record}
    (aligned : m.Aligned hist counted next) (starved : m.Starved counted) (free : w ∉ counted) :
    m.workerOuts w = [] ∧ Merge.held (m.fan w) = [] ∧ hist w = Tagged.view isMarker w m.out := by
  have empty : m.workerOuts w = [] ∧ Merge.held (m.fan w) = [] := by
    rcases starved.waits w with done | mem | ⟨idle, empty, -⟩
    · exact ⟨(aligned.finished w done).2, by simp [done, Merge.held]⟩
    · exact absurd mem free
    · exact ⟨empty, by simp [idle, Merge.held]⟩
  refine ⟨empty.1, empty.2, ?_⟩
  rw [aligned.history w, empty.1, empty.2, starved.drained, starved.idle]
  simp [Merge.reserved, free]

theorem counted_ahead {hist : Fin n → List Record}
    (aligned : m.Aligned hist counted next) (starved : m.Starved counted) (mem : w ∈ counted) :
    (m.out.map Prod.snd).filter isMarker ++ [next] <+: (hist w).filter isMarker := by
  have marker := aligned.marker ⟨w, mem⟩
  have parked := ((aligned.parking w).waits mem).1
  rw [aligned.history w]
  simp [starved.idle, Merge.reserved, mem, starved.drained, parked, Merge.held,
    Tagged.filter_view, marker]

theorem Inv.none_counted (inv : Inv crew s) (stuck : Stuck (move layout) s)
    {left : Fin n → List Record}
    (aligned : s.merge.Aligned left counted next) (starved : s.merge.Starved counted)
    (flow : ∀ w, Flow pace (crew.origins w) (s.chains w) (entered w) (left w))
    (received : ∀ w, layout.routed w crew.cursor s.fed =
      entered w ++ s.router.owed w ++ layout.routed w s.cursor s.input) : counted = ∅ := by
  by_contra some_counted
  obtain ⟨v, waiting⟩ := Finset.nonempty_iff_ne_empty.2 some_counted
  have loop := aligned.loop
  simp only [starved.idle, Merge.LoopOk] at loop
  obtain ⟨u, free⟩ : ∃ u, u ∉ counted := by
    by_contra all
    push Not at all
    have full : counted = Finset.univ := Finset.eq_univ_of_forall all
    have card := loop.1
    simp only [full, Finset.card_univ, Fintype.card_fin] at card
    omega
  -- A free worker has answered every marker it received, a counted one sent more than that.
  have behind : ∀ v ∈ counted, ∀ u, u ∉ counted →
      ¬(entered v).filter isMarker <+: (entered u).filter isMarker := by
    intro v waiting u free shorter
    obtain ⟨empty, -, seen⟩ := free_output aligned starved free
    have answered := (inv.worker_rests stuck empty (flow u)).2
    rw [seen, Tagged.filter_view] at answered
    have sent := (flow v).markers_initial
    rw [crew.uniform v] at sent
    have longer := ((counted_ahead aligned starved waiting).trans sent).trans
      (Chain.asked_mono shorter)
    have lengths := longer.length_le
    rw [← answered] at lengths
    simp only [length_append, length_singleton] at lengths
    omega
  have equal : ∀ w, (entered w).filter isMarker ++ (s.router.owed w).filter isMarker =
      (entered u).filter isMarker ++ (s.router.owed u).filter isMarker := by
    intro w
    exact append_cancel_right
      ((received_markers received w).symm.trans (received_markers received u))
  cases router : s.router with
  | send r targets =>
    obtain ⟨w, rest, split, node, inside, busy⟩ := inv.router_blocked stuck router
    -- The worker the router waits for is counted, so it received as many markers as `u`.
    have counted_target : w ∈ counted := by
      by_contra going
      obtain ⟨empty, -, -⟩ := free_output aligned starved going
      exact busy ((inv.worker_rests stuck empty (flow w)).1 node inside).empty
    have same := equal w
    simp only [router, Router.owed, split, mem_cons, true_or, if_true] at same
    by_cases owed : u = w ∨ u ∈ rest
    · rw [if_pos owed] at same
      exact behind w counted_target u free (append_cancel_right same ▸ prefix_rfl)
    · rw [if_neg owed, filter_nil, append_nil] at same
      exact behind w counted_target u free (same ▸ prefix_append _ _)
  | receive | returned =>
    have same := equal v
    simp only [router, Router.owed, filter_nil, append_nil] at same
    exact behind v waiting u free (same ▸ prefix_rfl)

theorem Inv.outputs_closed (inv : Inv crew s) (stuck : Stuck (move layout) s)
    (returned : s.router = .returned) {entered left : List Record}
    (flow : Flow pace (crew.origins w) (s.chains w) entered left)
    (rests : ∀ node ∈ s.chains w, Chain.Rests node) : s.merge.closed w = true := by
  have head := inv.heads w
  have closed : ∀ node ∈ s.chains w, node.closed = true := by
    refine flow.closed_eq rests fun node first => ?_
    simpa [mem_def.1 first, returned] using head
  have stopped : ∀ node ∈ s.chains w, node.phase = .returned false :=
    fun node mem => (rests node mem).stopped (closed node mem)
  cases going : s.merge.closed w with
  | true => rfl
  | false =>
    have blocked := stuck (.finish w)
    cases last : (s.chains w).getLast? with
    | none =>
      rw [getLast?_eq_none_iff.1 last] at head
      simp at head
    | some node =>
      have phase := stopped node (mem_of_mem_getLast? last)
      simp [move, inv.running, going, last, phase,
        layout.settles _ stopped] at blocked

/-- A stage that cannot move has delivered everything: it has sent every marker that its input
asks for, and every worker rests with what is routed to it processed and its output sent. -/
theorem Inv.delivered [NeZero n] (inv : Inv crew s) (stuck : Stuck (move layout) s) : Delivered s ∧
    (s.merge.out.map Prod.snd).filter isMarker =
      Chain.asked pace crew.shadows (s.fed.filter isMarker) ∧
    ∀ w, (∀ node ∈ s.chains w, Chain.Rests node) ∧
      Flow pace (crew.origins w) (s.chains w) (layout.routed w crew.cursor s.fed)
        (Tagged.view isMarker w s.merge.out) := by
  obtain ⟨entered, left, ⟨counted, next, aligned⟩, flow, received⟩ := inv.flow
  have inner : Stuck Merge.step s.merge := by
    intro a
    have blocked := stuck (.merge a)
    simpa [move, inv.running] using blocked
  have loop := aligned.loop
  -- Either way nothing is on its way through the merge.
  have merged : s.merge.fanIn = [] ∧
      ((s.merge.loop = .receive ∧ s.merge.arrived = 0) ∨ s.merge.loop = .returned) ∧
      ∀ w, s.merge.workerOuts w = [] ∧ Merge.held (s.merge.fan w) = [] ∧
        left w = Tagged.view isMarker w s.merge.out := by
    rcases aligned.starved inner with done | starved
    · simp only [done, Merge.LoopOk] at loop
      obtain ⟨drained, none, returned⟩ := loop
      refine ⟨drained, .inr done, fun w => ?_⟩
      have empty := (aligned.finished w (returned w)).2
      refine ⟨empty, by simp [returned w, Merge.held], ?_⟩
      rw [aligned.history w, empty, returned w, drained, done]
      simp [Merge.reserved, Merge.held]
    · have none := inv.none_counted stuck aligned starved flow received
      simp only [starved.idle, Merge.LoopOk, none, Finset.card_empty] at loop
      refine ⟨starved.drained, .inl ⟨starved.idle, loop.1.symm⟩, fun w => ?_⟩
      exact free_output aligned starved (by simp [none])
  obtain ⟨drained, waits, outputs⟩ := merged
  have rests := fun w => inv.worker_rests stuck (outputs w).1 (flow w)
  have idle : s.router = .receive ∨ s.router = .returned := by
    cases router : s.router with
    | send r targets =>
      obtain ⟨w, -, -, node, inside, busy⟩ := inv.router_blocked stuck router
      exact absurd ((rests w).1 node inside).empty busy
    | receive => exact .inl rfl
    | returned => exact .inr rfl
  have consumed : s.input = [] := by
    rcases idle with receiving | returned
    · cases input : s.input with
      | nil => rfl
      | cons r rest =>
        have blocked := stuck .receive
        simp [move, inv.running, receiving, input] at blocked
    · exact (inv.consumed returned).1
  have all_read : ∀ w, layout.routed w crew.cursor s.fed = entered w := by
    intro w
    rw [received w, consumed]
    rcases idle with receiving | returned
    · simp [receiving, Router.owed, Layout.routed]
    · simp [returned, Router.owed, Layout.routed]
  refine ⟨⟨consumed, idle, fun w node mem => ?_, fun w => ⟨(outputs w).1, (outputs w).2.1⟩, drained,
    waits, fun ended => ?_⟩, ?_, fun w => ⟨(rests w).1, ?_⟩⟩
  · exact ⟨((rests w).1 node mem).empty, ((rests w).1 node mem).pending⟩
  · have returned : s.router = .returned := by
      refine idle.resolve_left fun receiving => ?_
      have blocked := stuck .close
      simp [move, inv.running, receiving, consumed, ended] at blocked
    have closed := fun w => inv.outputs_closed stuck returned (flow w) (rests w).1
    refine ⟨returned, ?_, closed⟩
    rcases aligned.starved inner with done | starved
    · exact done
    · obtain ⟨w, active⟩ := starved.unfinished
      have none := inv.none_counted stuck aligned starved flow received
      rcases starved.waits w with done | mem | ⟨-, -, going⟩
      · exact absurd done active
      · simp [none] at mem
      · simp [closed w] at going
  · have first : Fin n := 0
    have answered := (rests first).2
    rw [(outputs first).2.2, Tagged.filter_view] at answered
    rw [answered, ← all_read first, layout.routed_markers]
  · rw [all_read w, ← (outputs w).2.2]
    exact flow w

/-! ## Termination -/

/-- The measures of the stage in the order of the data flow: what the router can receive,
what it has to send, those of the worker chains by position, and those of the merge. A move
lowers one of them and may raise later ones only. -/
def level (length : Nat) (s : Parallel π γ n) : Nat → Nat
  | 0 => s.input.length + (decide (s.router ≠ .returned)).toNat
  | 1 =>
    match s.router with
    | .send _ targets => targets.length + 1
    | _ => 0
  | k + 2 =>
    if k < length then ∑ w, Chain.level (s.chains w) k
    else s.merge.weight + ∑ w, (!s.merge.closed w).toNat

theorem level_move [NeZero n] (inv : Inv crew s) (moves : s.move layout a = some t) :
    Transition.Below (2 * crew.shadows.length + 3)
      (t.level (2 * crew.shadows.length)) (s.level (2 * crew.shadows.length)) := by
  cases a with simp only [move] at moves
  | receive =>
    split at moves
    next r rest _ idle first =>
      cases moves
      refine ⟨0, by omega, by simp, ?_⟩
      obtain ⟨q, targets, sends, -⟩ := layout.route_sends s.cursor r
      simp [level, first, idle, sends]
    · cases moves
  | dispatch =>
    split at moves
    next r w rest _ sending =>
      obtain ⟨chain, -, rfl⟩ := map_eq_some_iff.1 moves
      refine ⟨1, by omega, fun j below => ?_, by simp [level, sending]⟩
      obtain rfl : j = 0 := by omega
      simp [level, sending]
    next r _ sending =>
      cases moves
      refine ⟨1, by omega, fun j below => ?_, by simp [level, sending]⟩
      obtain rfl : j = 0 := by omega
      simp [level, sending]
    · cases moves
  | close =>
    split at moves
    next _ idle drained ended =>
      cases moves
      exact ⟨0, by omega, by simp, by simp [level, idle, drained]⟩
    · cases moves
  | worker w i a =>
    split at moves
    next chain emission _ stepped =>
      obtain ⟨m, -, rfl⟩ := map_eq_some_iff.1 moves
      obtain ⟨entered, left, -, flow, -⟩ := inv.flow
      obtain ⟨k, inside, earlier, lower⟩ := Chain.level_step stepped
      have length := congrArg length (crew.uniform w)
      rw [length_map] at length
      rw [(flow w).length_eq, length] at inside
      have sums : ∀ j, ∑ v, Chain.level (update s.chains w chain v) j +
          Chain.level (s.chains w) j = ∑ v, Chain.level (s.chains v) j + Chain.level chain j := by
        intro j
        have moved := Transition.sum_local (fun v => Chain.level (s.chains v) j)
          (fun v => Chain.level (update s.chains w chain v) j) w
          fun v other => by simp [other]
        simpa using moved
      refine ⟨k + 2, by omega, fun j below => ?_, ?_⟩
      · match j with
        | 0 => rfl
        | 1 => rfl
        | j + 2 =>
          have same := sums j
          rw [earlier j (by omega)] at same
          simp only [level]
          rw [if_pos (by omega), if_pos (by omega)]
          omega
      · have changed := sums k
        simp only [level]
        rw [if_pos inside, if_pos inside]
        omega
    · cases moves
  | finish w =>
    obtain ⟨-, running, rfl⟩ := inv_finish inv moves
    have flags := Transition.sum_local (fun v => (!s.merge.closed v).toNat)
      (fun v => (!update s.merge.closed w true v).toNat) w fun v other => by simp [other]
    simp only [update_self, running, Bool.not_true, Bool.not_false, Bool.toNat_false,
      Bool.toNat_true] at flags
    refine ⟨2 * crew.shadows.length + 2, by omega, fun j below => ?_, ?_⟩
    · match j with
      | 0 => rfl
      | 1 => rfl
      | j + 2 =>
        simp only [level]
        rw [if_pos (by omega), if_pos (by omega)]
    · simp only [level, lt_irrefl, if_false, Merge.close, Merge.weight]
      omega
  | merge a =>
    obtain ⟨-, m, moved, rfl⟩ := inv_merge inv moves
    obtain ⟨entered, left, aligned, -, -⟩ := inv.flow
    have lower := Merge.weight_move aligned moved
    refine ⟨2 * crew.shadows.length + 2, by omega, fun j below => ?_, ?_⟩
    · match j with
      | 0 => rfl
      | 1 => rfl
      | j + 2 =>
        simp only [level]
        rw [if_pos (by omega), if_pos (by omega)]
    · simp only [level, lt_irrefl, if_false, Fed.closed_move moved]
      omega

theorem fed_move (moves : s.move layout a = some t) : t.fed = s.fed := by
  cases a with simp only [move] at moves
  | receive | close =>
    split at moves
    · exact some.inj moves ▸ rfl
    · cases moves
  | dispatch =>
    split at moves
    · obtain ⟨chain, -, rfl⟩ := map_eq_some_iff.1 moves
      rfl
    · exact some.inj moves ▸ rfl
    · cases moves
  | worker w i a =>
    split at moves
    · obtain ⟨m, -, rfl⟩ := map_eq_some_iff.1 moves
      rfl
    · cases moves
  | finish w =>
    split at moves
    · obtain ⟨failed, -, rfl⟩ := map_eq_some_iff.1 moves
      cases failed <;> rfl
    · cases moves
  | merge a =>
    split at moves
    · cases moves
    · obtain ⟨m, -, rfl⟩ := map_eq_some_iff.1 moves
      rfl

theorem fed_moves (moved : Reach (move layout) Always s t) : t.fed = s.fed := by
  induction moved with
  | refl => rfl
  | tail a _ _ moves ih => exact (fed_move moves).trans ih

theorem reach_moves (moved : Reach (move layout) Always s t) : Reach (step layout) Always s t := by
  induction moved with
  | refl => exact .refl
  | tail a _ _ moves ih => exact .tail (.move a) ih trivial moves

/-! ## Runs -/

theorem inv_reach [NeZero n] (crew : Crew layout pace)
    (reach : Reach (step layout) Always (start crew.origins crew.cursor) s) : Inv crew s :=
  reach.invariant inv_start fun _ _ _ inv _ moves => inv_step inv moves

theorem Inv.halts [NeZero n] (inv : Inv crew s) : Transition.Halts (move layout) s :=
  Transition.halts_of_lowers (Transition.below_wellFounded (2 * crew.shadows.length + 3)) (Inv crew)
    (fun _ _ _ inv moves => inv_move inv moves) (fun _ _ _ inv moves => level_move inv moves) inv

theorem Inv.exists_delivered [NeZero n] (inv : Inv crew s) :
    ∃ t, Reach (move layout) Always s t ∧ t.Delivered ∧ (t.merge.out.map Prod.snd).filter isMarker =
        Chain.asked pace crew.shadows (s.fed.filter isMarker) := by
  obtain ⟨t, moved, stuck⟩ := inv.halts.exists_stuck
  have kept : Inv crew t := moved.invariant inv fun _ _ _ held _ moves => inv_move held moves
  obtain ⟨delivered, markers, -⟩ := kept.delivered stuck
  exact ⟨t, moved, delivered, fed_moves moved ▸ markers⟩

theorem Inv.completes (inv : Inv crew s) (returned : s.merge.loop = .returned) (w : Fin n) :
    Chain.Completes layout.proc (fun _ => True) (crew.origins w)
      (layout.routed w crew.cursor s.fed) (Tagged.view isMarker w s.merge.out) := by
  obtain ⟨entered, left, ⟨counted, next, aligned⟩, flow, received⟩ := inv.flow
  have loop := aligned.loop
  simp only [returned, Merge.LoopOk] at loop
  obtain ⟨drained, none, done⟩ := loop
  have stopped : ∀ node ∈ s.chains w, node.phase = .returned false :=
    inv.ended w (aligned.finished w (done w)).1
  have all_sent : left w = Tagged.view isMarker w s.merge.out := by
    rw [aligned.history w, (aligned.finished w (done w)).2, done w, drained, returned]
    simp [Merge.reserved, Merge.held]
  have routed : s.router = .returned := by
    have head := inv.heads w
    cases chain : (s.chains w).head? with
    | none => simp [chain] at head
    | some node =>
      have closed := (flow w).head_closed stopped node chain
      simpa [chain, closed] using head
  have all_read : layout.routed w crew.cursor s.fed = entered w := by
    rw [received w, (inv.consumed routed).1, routed]
    simp [Router.owed, Layout.routed]
  rw [all_read, ← all_sent]
  exact (flow w).completes stopped

/-! ## Stages that wait forever -/

theorem merge_waits (idle : m.loop = .receive) (drained : m.fanIn = [])
    (fan : ∀ w, m.fan w = .done ∨ m.fan w = .parked ∧ m.resume w = false)
    (active : ∃ w, m.fan w ≠ .done) : Stuck Merge.step m := by
  intro a
  cases a with
  | take w | forward w | finish w => rcases fan w with done | ⟨parked, -⟩ <;> simp [Merge.step, *]
  | unpark w => rcases fan w with done | ⟨parked, token⟩ <;> simp [Merge.step, *]
  | receive => simp [Merge.step, idle, drained]
  | send | signal => simp [Merge.step, idle]
  | ret =>
    have waiting : ¬∀ w, m.fan w = .done := not_forall.2 active
    simp only [Merge.step, idle, drained, if_neg waiting]

def hasReturned (node : Node π Record) : Bool :=
  match node.phase with
  | .returned _ => true
  | _ => false

theorem stuck_of_returned (router : s.router = .returned) (workers : ∀ w, ∀ node ∈ s.chains w,
    hasReturned node = true) (closed : ∀ w, s.merge.closed w = true)
    (merge : Stuck Merge.step s.merge) : Stuck (move layout) s := by
  have stopped : ∀ w, ∀ node ∈ s.chains w, ∃ failed, node.phase = .returned failed := by
    intro w node mem
    have returned := workers w node mem
    simp only [hasReturned] at returned
    split at returned
    · exact ⟨_, ‹_›⟩
    · cases returned
  intro a
  cases a with
  | receive | dispatch | close => simp [move, router]
  | worker w i act => simp [move, Chain.step_returned (stopped w) i act]
  | finish w => simp [move, closed w]
  | merge a => simp [move, merge a]

end Parallel

end Weibo.Pipeline
