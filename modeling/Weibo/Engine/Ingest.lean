import Weibo.Engine.Injector
import Weibo.Lib.Complete
import Weibo.Lib.Transducer
import Weibo.Source.WatermarkSource

/-!
# The source and the barrier injector

The source, which may be wrapped by a `WatermarkSource`, and `injectBarriers` share the caller's
context and a channel. Each sees a cancellation at a moment of its own: the wrapper emits the
maximum watermark, and the injector injects the shutdown barrier and forwards what is left.
-/

namespace Weibo.Engine

open Source List
open Chain (unmarked)
open Marked (marks)
open Transition (Reach Always)
open Record (barrierID isCheckpoint newBarrier newWatermark)

inductive Forwarder
  | select
  | forward (r : Record)
  | flush
  | returned
  deriving DecidableEq

def Forwarder.hand : Forwarder → List Record
  | .forward r => [r]
  | _ => []

inductive InjectorPhase
  | select
  | drain
  | returned
  deriving DecidableEq

structure Ingest where
  source : List Record
  watermarks : Option WatermarkSource
  injector : Injector
  forwarder : Forwarder := .select
  cancelled : Bool := false
  channel : List Record := []
  phase : InjectorPhase := .select
  sent : List Record := []
  out : List Record := []

inductive IngestAction
  | cancel
  | read
  | forward
  | tick (idle : PositionKey → Bool) (dropped : Bool)
  | leave
  | ended
  | flush (accepted : Bool)
  | inject
  | pass
  | finish
  | shutdown
  | drain
  | drained

def IngestAction.isCancel : IngestAction → Bool
  | .cancel => true
  | _ => false

namespace Ingest

def start (runNonce : Nat) (watermarks : Option WatermarkSource) (source : List Record) :
    Ingest where
  source := source
  watermarks := watermarks
  injector := { runNonce }

def send (s : Ingest) (r : Record) : Ingest :=
  { s with channel := s.channel ++ [r], sent := s.sent ++ [r] }

def barrier (s : Ingest) (kind : BarrierKind) (phase : InjectorPhase) : Ingest :=
  { s with
    injector := s.injector.barrier
    phase
    out := s.out ++ [newBarrier (s.injector.nextID kind)] }

def pass (s : Ingest) (r : Record) (rest : List Record) : Ingest :=
  { s with channel := rest, injector := s.injector.pass r, out := s.out ++ [r] }

def step (s : Ingest) : IngestAction → Option Ingest
  | .cancel => some { s with cancelled := true }
  | .read =>
    match s.forwarder, s.source with
    | .select, r :: rest => some { s with
        source := rest
        forwarder := .forward r
        watermarks := s.watermarks.map (·.onRecord r) }
    | _, _ => none
  | .forward =>
    match s.forwarder with
    | .forward r => some ({ s with forwarder := .select }.send r)
    | _ => none
  | .tick idle dropped =>
    match s.forwarder, s.watermarks with
    | .select, some ws =>
      let ticked := { s with watermarks := some (ws.tick idle).1 }
      if (ws.tick idle).2.isZero ∨ (s.cancelled ∧ dropped) then some ticked
      else some (ticked.send (newWatermark (ws.tick idle).2))
    | _, _ => none
  | .leave =>
    match s.forwarder with
    | .select | .forward _ => if s.cancelled then some { s with forwarder := .flush } else none
    | _ => none
  | .ended =>
    match s.forwarder with
    | .select =>
      if s.source = [] ∨ s.cancelled then some { s with forwarder := .flush } else none
    | _ => none
  | .flush accepted =>
    match s.forwarder with
    | .flush =>
      let closed := { s with forwarder := .returned }
      if s.watermarks.isSome ∧ accepted then some (closed.send WatermarkSource.maxWatermark)
      else some closed
    | _ => none
  | .inject =>
    match s.phase with
    | .select => some (s.barrier .periodic .select)
    | _ => none
  | .pass =>
    match s.phase, s.channel with
    | .select, r :: rest => some (s.pass r rest)
    | _, _ => none
  | .finish =>
    if s.phase = .select ∧ s.channel = [] ∧ s.forwarder = .returned then
      some (s.barrier .final .returned)
    else none
  | .shutdown =>
    if s.phase = .select ∧ s.cancelled then some (s.barrier .shutdown .drain) else none
  | .drain =>
    match s.phase, s.channel with
    | .drain, r :: rest => some (s.pass r rest)
    | _, _ => none
  | .drained =>
    if s.phase = .drain ∧ s.channel = [] ∧ s.forwarder = .returned then
      some { s with phase := .returned }
    else none

/-! ## What a move can do -/

inductive Move (s : Ingest) : IngestAction → Ingest → Prop
  | cancel : Move s .cancel { s with cancelled := true }
  | read (r : Record) (rest : List Record) (waits : s.forwarder = .select)
      (first : s.source = r :: rest) : Move s .read { s with
        source := rest
        forwarder := .forward r
        watermarks := s.watermarks.map (·.onRecord r) }
  | forward (r : Record) (sending : s.forwarder = .forward r) :
      Move s .forward ({ s with forwarder := .select }.send r)
  | skip (ws : WatermarkSource) (idle : PositionKey → Bool) (dropped : Bool)
      (waits : s.forwarder = .select) (wrapped : s.watermarks = some ws) :
      Move s (.tick idle dropped) { s with watermarks := some (ws.tick idle).1 }
  | stamp (ws : WatermarkSource) (idle : PositionKey → Bool) (dropped : Bool)
      (waits : s.forwarder = .select) (wrapped : s.watermarks = some ws)
      (ready : (ws.tick idle).2 ≠ Time.zero) :
      Move s (.tick idle dropped)
        ({ s with watermarks := some (ws.tick idle).1 }.send (newWatermark (ws.tick idle).2))
  | leave (runs : s.forwarder = .select ∨ ∃ r, s.forwarder = .forward r)
      (cancelled : s.cancelled = true) : Move s .leave { s with forwarder := .flush }
  | ended (waits : s.forwarder = .select) (exhausted : s.source = [] ∨ s.cancelled = true) :
      Move s .ended { s with forwarder := .flush }
  | close (accepted : Bool) (flushing : s.forwarder = .flush)
      (unsent : ¬(s.watermarks.isSome ∧ accepted)) :
      Move s (.flush accepted) { s with forwarder := .returned }
  | flush (accepted : Bool) (flushing : s.forwarder = .flush) (wrapped : s.watermarks.isSome) :
      Move s (.flush accepted) ({ s with forwarder := .returned }.send WatermarkSource.maxWatermark)
  | inject (waits : s.phase = .select) : Move s .inject (s.barrier .periodic .select)
  | pass (r : Record) (rest : List Record) (waits : s.phase = .select)
      (first : s.channel = r :: rest) : Move s .pass (s.pass r rest)
  | finish (waits : s.phase = .select) (empty : s.channel = []) (closed : s.forwarder = .returned) :
      Move s .finish (s.barrier .final .returned)
  | shutdown (waits : s.phase = .select) (cancelled : s.cancelled = true) :
      Move s .shutdown (s.barrier .shutdown .drain)
  | drain (r : Record) (rest : List Record) (draining : s.phase = .drain)
      (first : s.channel = r :: rest) : Move s .drain (s.pass r rest)
  | drained (draining : s.phase = .drain) (empty : s.channel = [])
      (closed : s.forwarder = .returned) :
      Move s .drained { s with phase := .returned }

theorem move_of_step {s t : Ingest} {a : IngestAction}
    (moves : s.step a = some t) : Move s a t := by
  cases a with simp only [step] at moves
  | cancel =>
    cases moves
    exact .cancel
  | read =>
    split at moves
    · cases moves
      exact .read _ _ ‹_› ‹_›
    · cases moves
  | forward =>
    split at moves
    · cases moves
      exact .forward _ ‹_›
    · cases moves
  | tick idle dropped =>
    split at moves
    · split at moves
      · cases moves
        exact .skip _ _ _ ‹_› ‹_›
      next ready =>
        cases moves
        refine .stamp _ _ _ ‹_› ‹_› fun zero => ready (.inl ?_)
        simp [Time.isZero, zero]
    · cases moves
  | leave =>
    split at moves
    · split at moves
      · cases moves
        exact .leave (.inl ‹_›) ‹_›
      · cases moves
    · split at moves
      · cases moves
        exact .leave (.inr ⟨_, ‹_›⟩) ‹_›
      · cases moves
    · cases moves
  | ended =>
    split at moves
    · split at moves
      · cases moves
        exact .ended ‹_› ‹_›
      · cases moves
    · cases moves
  | flush accepted =>
    split at moves
    · split at moves
      next guard =>
        cases moves
        exact .flush accepted ‹_› guard.1
      next guard =>
        cases moves
        exact .close accepted ‹_› guard
    · cases moves
  | inject =>
    split at moves
    · cases moves
      exact .inject ‹_›
    · cases moves
  | pass =>
    split at moves
    · cases moves
      exact .pass _ _ ‹_› ‹_›
    · cases moves
  | finish =>
    obtain ⟨guard, rfl⟩ := Transition.of_ite_some moves
    exact .finish guard.1 guard.2.1 guard.2.2
  | shutdown =>
    obtain ⟨guard, rfl⟩ := Transition.of_ite_some moves
    exact .shutdown guard.1 guard.2
  | drain =>
    split at moves
    · cases moves
      exact .drain _ _ ‹_› ‹_›
    · cases moves
  | drained =>
    obtain ⟨guard, rfl⟩ := Transition.of_ite_some moves
    exact .drained guard.1 guard.2.1 guard.2.2

/-! ## Barriers -/

structure Inv (runNonce : Nat) (s : Ingest) : Prop where
  plain : (∀ r ∈ s.source, r.barrierID = none) ∧ (∀ r ∈ s.forwarder.hand, r.barrierID = none) ∧
    ∀ r ∈ s.sent, r.barrierID = none
  order : unmarked isCheckpoint s.out ++ s.channel = s.sent
  ids : s.injector.runNonce = runNonce ∧ ∀ id ∈ marks barrierID s.out,
    id.runNonce = runNonce ∧ id.number ≤ s.injector.checkpointID
  distinct : (marks barrierID s.out).Nodup
  covered : s.phase ≠ .select → ∃ front id tail, s.out = front ++ newBarrier id :: tail ∧
    ∀ r ∈ tail, r.barrierID = none
  /-- Without a cancellation the injector returns at the end of the stream, behind the final
  barrier. -/
  ending : s.cancelled = false → s.phase ≠ .drain ∧ (s.phase = .returned →
    s.forwarder = .returned ∧ s.channel = [] ∧ ∃ front id, s.out = front ++ [newBarrier id])

variable {runNonce : Nat} {s t : Ingest} {a : IngestAction}

theorem inv_start {watermarks : Option WatermarkSource} {source : List Record}
    (plain : ∀ r ∈ source, r.barrierID = none) :
    Inv runNonce (start runNonce watermarks source) where
  plain := ⟨plain, by simp [start, Forwarder.hand], by simp [start]⟩
  order := rfl
  ids := ⟨rfl, by simp [start]⟩
  distinct := by simp [start]
  covered := by simp [start]
  ending := by simp [start]

theorem Inv.send (inv : Inv runNonce s) {r : Record} (plain : r.barrierID = none)
    (going : s.cancelled = false → s.phase ≠ .returned) : Inv runNonce (s.send r) := by
  refine ⟨⟨inv.plain.1, inv.plain.2.1, ?_⟩, ?_, inv.ids, inv.distinct, inv.covered, fun running =>
    ⟨(inv.ending running).1, fun returned => absurd returned (going running)⟩⟩
  · intro q mem
    rcases mem_append.1 mem with old | new
    · exact inv.plain.2.2 q old
    · rw [mem_singleton.1 new]
      exact plain
  · simp only [Ingest.send, ← append_assoc, inv.order]

theorem Inv.barrier (inv : Inv runNonce s) (kind : BarrierKind) {phase : InjectorPhase}
    (ending : s.cancelled = false → phase ≠ .drain ∧ (phase = .returned →
      s.forwarder = .returned ∧ s.channel = [])) : Inv runNonce (s.barrier kind phase) := by
  obtain ⟨plain, order, ⟨nonce, ids⟩, distinct, -, -⟩ := inv
  have barrier : (newBarrier (s.injector.nextID kind)).barrierID =
      some (s.injector.nextID kind) := rfl
  refine ⟨plain, ?_, ⟨nonce, fun id mem => ?_⟩, ?_, fun _ => ⟨s.out, _, [], rfl, by simp⟩,
    fun running => ⟨(ending running).1, fun returned => ?_⟩⟩
  · simp only [Ingest.barrier, Chain.unmarked_append]
    rw [show unmarked isCheckpoint [newBarrier (s.injector.nextID kind)] = [] from rfl,
      append_nil, order]
  · simp only [Ingest.barrier, Marked.marks_append, Marked.marks_singleton barrier,
      mem_append, mem_singleton] at mem
    rcases mem with old | rfl
    · have bounds := ids id old
      exact ⟨bounds.1, Nat.le_succ_of_le bounds.2⟩
    · exact ⟨nonce, Nat.le_refl _⟩
  · simp only [Ingest.barrier, Marked.marks_append, Marked.marks_singleton barrier]
    refine nodup_append.2 ⟨distinct, by simp, fun id old other new same => ?_⟩
    have bound := (ids id old).2
    rw [mem_singleton.1 new] at same
    rw [same] at bound
    exact absurd bound (by simp [Injector.nextID])
  · obtain ⟨closed, empty⟩ := (ending running).2 returned
    exact ⟨closed, empty, s.out, _, rfl⟩

theorem Inv.pass (inv : Inv runNonce s) {r : Record} {rest : List Record}
    (first : s.channel = r :: rest) : Inv runNonce (s.pass r rest) := by
  obtain ⟨plain, order, ⟨nonce, ids⟩, distinct, covered, ending⟩ := inv
  have unbarriered : r.barrierID = none := plain.2.2 r (by rw [← order, first]; simp)
  have kept : marks barrierID (s.out ++ [r]) = marks barrierID s.out := by
    rw [Marked.marks_append, Marked.marks_singleton_none unbarriered, append_nil]
  have injector : (s.injector.pass r).runNonce = s.injector.runNonce ∧
      (s.injector.pass r).checkpointID = s.injector.checkpointID := by
    simp only [Injector.pass]
    split <;> exact ⟨rfl, rfl⟩
  refine ⟨plain, ?_, ⟨injector.1.trans nonce, ?_⟩, ?_, fun moved => ?_, fun running =>
    ⟨(ending running).1, fun returned => ?_⟩⟩
  · rw [first] at order
    simp [Ingest.pass, ← order, unmarked, isCheckpoint, unbarriered]
  · simp only [Ingest.pass, kept, injector.2]
    exact ids
  · simp only [Ingest.pass, kept]
    exact distinct
  · obtain ⟨front, id, tail, split, unmarked⟩ := covered moved
    refine ⟨front, id, tail ++ [r], by simp [Ingest.pass, split], fun q mem => ?_⟩
    rcases mem_append.1 mem with old | new
    · exact unmarked q old
    · rw [mem_singleton.1 new]
      exact unbarriered
  · obtain ⟨-, empty, -⟩ := (ending running).2 returned
    simp [first] at empty

theorem Inv.turn (inv : Inv runNonce s) {forwarder : Forwarder} (bare : forwarder.hand = [])
    (runs : s.cancelled = false → s.forwarder ≠ .returned) : Inv runNonce { s with forwarder } :=
  { inv with
    plain := ⟨inv.plain.1, by simp [bare], inv.plain.2.2⟩
    ending := fun running => ⟨(inv.ending running).1, fun returned =>
      absurd ((inv.ending running).2 returned).1 (runs running)⟩ }

theorem Inv.step (inv : Inv runNonce s) (moves : s.step a = some t) : Inv runNonce t := by
  have going : s.forwarder ≠ .returned → s.cancelled = false → s.phase ≠ .returned :=
    fun runs running returned => runs ((inv.ending running).2 returned).1
  cases move_of_step moves with
  | cancel => exact { inv with ending := by simp }
  | read r rest waits first =>
    obtain ⟨source, -, sent⟩ := inv.plain
    refine { inv with
      plain := ⟨fun q mem => source q (by simp [first, mem]), fun q mem => ?_, sent⟩,
      ending := fun running => ⟨(inv.ending running).1, fun returned => ?_⟩ }
    · rw [mem_singleton.1 mem]
      exact source r (by simp [first])
    · exact absurd returned (going (by simp [waits]) running)
  | forward r sending =>
    have unbarriered : r.barrierID = none := inv.plain.2.1 r (by simp [sending, Forwarder.hand])
    have selecting :
      Inv runNonce { s with forwarder := .select } := inv.turn rfl (by simp [sending])
    exact selecting.send unbarriered (going (by simp [sending]))
  | skip ws idle dropped waits wrapped =>
    exact { inv with }
  | stamp ws idle dropped waits wrapped ready =>
    have ticked : Inv runNonce { s with watermarks := some (ws.tick idle).1 } :=
      { inv with }
    exact ticked.send rfl (going (by simp [waits]))
  | leave runs cancelled =>
    exact inv.turn rfl (by simp [cancelled])
  | ended waits exhausted =>
    exact inv.turn rfl (by simp [waits])
  | close accepted flushing unsent =>
    exact inv.turn rfl (by simp [flushing])
  | flush accepted flushing wrapped =>
    have closed :
      Inv runNonce { s with forwarder := .returned } := inv.turn rfl (by simp [flushing])
    exact closed.send rfl (going (by simp [flushing]))
  | inject waits => exact inv.barrier .periodic fun _ => by simp
  | pass r rest waits first | drain r rest draining first => exact inv.pass first
  | finish waits empty closed => exact inv.barrier .final fun _ => by simp [empty, closed]
  | shutdown waits cancelled =>
    exact inv.barrier .shutdown fun running => by simp [cancelled] at running
  | drained draining empty closed =>
    exact { inv with
      covered := fun _ => inv.covered (by simp [draining]),
      ending := fun running => absurd draining (inv.ending running).1 }

end Ingest

end Weibo.Engine
