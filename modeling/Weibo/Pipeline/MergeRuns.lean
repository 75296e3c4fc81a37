import Weibo.Pipeline.Alignment

/-!
# Runs of the aligned merge over given worker outputs

`Fed` closes the merge with its workers: worker `w` still has the records `rest w` to send. Runs
from `Fed.start input` are all interleavings of the workers, the fan-in goroutines and the merge
loop.
-/

namespace Weibo.Pipeline

open List Option Function Bool

open Tagged (own view)
open Transition (Reach Always run of_ite_some)
open Record (isMarker newWatermark)

variable {n : Nat}

structure Fed (n : Nat) where
  rest : Fin n → List Record
  merge : Merge n

inductive FedAction (n : Nat)
  | produce (w : Fin n)
  | close (w : Fin n)
  | merge (a : MergeAction n)

namespace Fed

def start (input : Fin n → List Record) : Fed n := ⟨input, Merge.start⟩

def step (s : Fed n) : FedAction n → Option (Fed n)
  | .produce w =>
    match s.rest w with
    | [] => none
    | r :: rest => (s.merge.offer w r).map fun m => ⟨update s.rest w rest, m⟩
  | .close w =>
    if s.rest w = [] ∧ s.merge.closed w = false then some ⟨s.rest, s.merge.close w⟩ else none
  | .merge a => (s.merge.step a).map fun m => ⟨s.rest, m⟩

/-- The merge is aligned with what the workers have sent of `input`. -/
structure Inv (input : Fin n → List Record) (s : Fed n) : Prop where
  aligned : ∃ hist, s.merge.AlignedAt hist ∧ ∀ w, hist w ++ s.rest w = input w
  closed : ∀ w, s.merge.closed w = true → s.rest w = []

variable {input : Fin n → List Record} {ms : List Record}

theorem inv_start (pos : 0 < n) : Inv input (start input) :=
  ⟨⟨_, Merge.aligned_start pos, fun _ => rfl⟩, by simp [start, Merge.start]⟩

theorem common_sent {hist rest : Fin n → List Record} (common : ∀ w, (input w).filter isMarker = ms)
    (sent : ∀ w, hist w ++ rest w = input w) (w : Fin n) : (hist w).filter isMarker <+: ms := by
  rw [← common w, ← sent w, filter_append]
  exact prefix_append _ _

theorem closed_move {m t : Merge n} (move : m.Move t) : t.closed = m.closed := by
  cases move with
  | receive w r rest idle first =>
    simp only [Merge.accept]
    split <;> [split; skip] <;> rfl
  | _ => rfl

variable {s : Fed n}

theorem inv_step (pos : 0 < n) (common : ∀ w, (input w).filter isMarker = ms) {t : Fed n}
    {a : FedAction n} (inv : Inv input s) (moves : s.step a = some t) : Inv input t := by
  obtain ⟨⟨hist, aligned, sent⟩, closed⟩ := inv
  cases a with
  | produce w =>
    simp only [step] at moves
    split at moves
    · cases moves
    next r rest first =>
      obtain ⟨m, offered, rfl⟩ := map_eq_some_iff.1 moves
      have running : s.merge.closed w = false := by
        cases shut : s.merge.closed w with
        | false => rfl
        | true => simpa [first] using closed w shut
      refine ⟨⟨_, Merge.aligned_offer aligned running offered, fun v => ?_⟩, fun v shut => ?_⟩
      · by_cases same : v = w
        · subst same
          simpa [first] using sent v
        · simpa [same] using sent v
      · have kept : m.closed = s.merge.closed := Merge.offer_closed offered
        by_cases same : v = w
        · subst same
          simp [kept, running] at shut
        · simpa [same] using closed v (kept ▸ shut)
  | close w =>
    obtain ⟨ready, rfl⟩ := Transition.of_ite_some moves
    refine ⟨⟨hist, Merge.aligned_close w aligned, sent⟩, fun v shut => ?_⟩
    by_cases same : v = w
    · exact same ▸ ready.1
    · exact closed v (by simpa [Merge.close, same] using shut)
  | merge a =>
    obtain ⟨m, moved, rfl⟩ := map_eq_some_iff.1 moves
    have move := Merge.move_of_step moved
    refine ⟨⟨hist, Merge.aligned_move pos aligned (common_sent common sent) move, sent⟩, ?_⟩
    exact fun v shut => closed v (closed_move move ▸ shut)

theorem inv_reach (pos : 0 < n) (common : ∀ w, (input w).filter isMarker = ms)
    (reach : Reach step Always (start input) s) : Inv input s :=
  reach.invariant (inv_start pos) fun _ _ _ inv _ moves => inv_step pos common inv moves

theorem Inv.view_initial (inv : Inv input s)
    (w : Fin n) : view isMarker w s.merge.out <+: input w := by
  obtain ⟨⟨hist, ⟨counted, next, aligned⟩, sent⟩, -⟩ := inv
  rw [← sent w, aligned.history w]
  simp only [append_assoc]
  exact prefix_append _ _

theorem Inv.view_returned (inv : Inv input s) (done : s.merge.loop = .returned)
    (w : Fin n) : view isMarker w s.merge.out = input w := by
  obtain ⟨⟨hist, ⟨counted, next, aligned⟩, sent⟩, closed⟩ := inv
  have loop := aligned.loop
  simp only [done, Merge.LoopOk] at loop
  obtain ⟨shut, drained⟩ := aligned.finished w (loop.2.2 w)
  have whole := sent w
  rw [aligned.history w, closed w shut] at whole
  simpa [done, Merge.reserved, loop.1, loop.2.2 w, Merge.held, drained] using whole

theorem Inv.progress (inv : Inv input s) (common : ∀ w, (input w).filter isMarker = ms)
    (running : s.merge.loop ≠ .returned) : ∃ a t, s.step a = some t := by
  by_contra blocked
  have stuck : ∀ a, s.step a = none := by
    intro a
    cases moves : s.step a with
    | none => rfl
    | some t => exact absurd ⟨a, t, moves⟩ blocked
  obtain ⟨⟨hist, ⟨counted, next, aligned⟩, sent⟩, closed⟩ := inv
  have inner : Transition.Stuck Merge.step s.merge := fun a => by
    simpa [step] using stuck (.merge a)
  have starved := (aligned.starved inner).resolve_left running
  have settled : ∀ w, s.merge.fan w = .done ∨ w ∈ counted := by
    intro w
    rcases starved.waits w with done | mem | ⟨-, empty, shut⟩
    · exact .inl done
    · exact .inr mem
    · exfalso
      cases rest : s.rest w with
      | nil => simpa [step, rest, shut] using stuck (.close w)
      | cons r rest =>
        have full := stuck (.produce w)
        simp [step, rest, Merge.offer, empty, internalBuf] at full
  have loop := aligned.loop
  simp only [starved.idle, Merge.LoopOk] at loop
  obtain ⟨v, active⟩ := starved.unfinished
  have waiting : v ∈ counted := (settled v).resolve_left active
  obtain ⟨w, free⟩ : ∃ w, w ∉ counted := by
    by_contra all
    push Not at all
    have full : counted = Finset.univ := Finset.eq_univ_of_forall all
    have card := loop.1
    simp only [full, Finset.card_univ, Fintype.card_fin] at card
    omega
  have done := (settled w).resolve_right free
  obtain ⟨shut, drained⟩ := aligned.finished w done
  have ended : view isMarker w s.merge.out = input w := by
    have whole := sent w
    rw [aligned.history w, closed w shut] at whole
    simpa [starved.idle, Merge.reserved, free, starved.drained, done, Merge.held, drained]
      using whole
  have longer : (input v).filter isMarker = (s.merge.out.map Prod.snd).filter
      isMarker ++ next :: (s.merge.workerOuts v ++ s.rest v).filter isMarker := by
    have marker := aligned.marker ⟨v, waiting⟩
    have parked := ((aligned.parking v).waits waiting).1
    rw [← sent v, aligned.history v]
    simp [starved.idle, Merge.reserved, waiting, starved.drained, parked, Merge.held,
      Tagged.filter_view, marker]
  have equal : (input v).filter isMarker = (s.merge.out.map Prod.snd).filter
      isMarker := by
    rw [common v, ← common w, ← ended, Tagged.filter_view]
  have lengths := congrArg length (longer.symm.trans equal)
  simp only [length_append, length_cons] at lengths
  omega

def weight (s : Fed n) : Nat :=
  ∑ w, (8 * (s.rest w).length + (!s.merge.closed w).toNat) + s.merge.weight

theorem weight_step {t : Fed n} {a : FedAction n} (inv : Inv input s)
    (moves : s.step a = some t) : t.weight < s.weight := by
  obtain ⟨⟨hist, aligned, sent⟩, closed⟩ := inv
  cases a with
  | produce w =>
    simp only [step] at moves
    split at moves
    · cases moves
    next r rest first =>
      obtain ⟨m, offered, rfl⟩ := map_eq_some_iff.1 moves
      simp only [Merge.offer] at offered
      obtain ⟨-, rfl⟩ := of_ite_some offered
      have source := Transition.sum_local
        (fun v => 8 * (s.rest v).length + (!s.merge.closed v).toNat)
        (fun v => 8 * (update s.rest w rest v).length +
          (!s.merge.closed v).toNat) w fun v other => by simp [other]
      have channel := Transition.sum_local
        (fun v => Merge.fanWeight (s.merge.fan v) (s.merge.resume v) +
          7 * (s.merge.workerOuts v).length)
        (fun v => Merge.fanWeight (s.merge.fan v) (s.merge.resume v) + 7 *
          (update s.merge.workerOuts w (s.merge.workerOuts w ++ [r]) v).length) w
        fun v other => by simp [other]
      simp only [update_self, first, length_cons, length_append,
        length_nil] at source channel
      simp only [weight, Merge.weight]
      omega
  | close w =>
    obtain ⟨ready, rfl⟩ := Transition.of_ite_some moves
    have source := Transition.sum_local
      (fun v => 8 * (s.rest v).length + (!s.merge.closed v).toNat)
      (fun v => 8 * (s.rest v).length +
        (!update s.merge.closed w true v).toNat) w fun v other => by simp [other]
    simp only [update_self, ready.2, Bool.not_true, Bool.not_false, toNat_false,
      toNat_true] at source
    simp only [weight, Merge.close, Merge.weight]
    omega
  | merge a =>
    obtain ⟨m, moved, rfl⟩ := map_eq_some_iff.1 moves
    have move := Merge.move_of_step moved
    have lower := Merge.weight_move aligned move
    simp only [weight, closed_move move]
    omega

end Fed

def segments (records : List Record) : List (List Record) := records.splitOnP isMarker

/-- For workers with a common marker sequence, in every interleaving: a marker is sent exactly
between the records that surround it on every worker; the merge ends after boundedly many moves; and
then the markers were sent once each, with the workers' records of every segment between them, in
each worker's order. -/
theorem alignedMerge_aligns (pos : 0 < n) (input : Fin n → List Record) (ms : List Record)
    (common : ∀ w, (input w).filter isMarker = ms) :
      (∀ s, Reach Fed.step Always (Fed.start input) s →
      (∀ w, view isMarker w s.merge.out <+: input w) ∧
      (∀ w ahead v marker behind, s.merge.out = ahead ++ (v, marker) :: behind →
        marker.isMarker = true → ∃ later, view isMarker w behind <+: later ∧
          input w = view isMarker w ahead ++ marker :: later) ∧
      (s.merge.loop ≠ .returned → ∃ a t, s.step a = some t) ∧ (s.merge.loop = .returned →
        (s.merge.out.map Prod.snd).filter isMarker = ms ∧
        ∀ (k : Nat) segment, (s.merge.out.splitOnP fun x => x.2.isMarker)[k]? = some segment →
          (∀ w, (segments (input w))[k]? = some (own w segment)) ∧ (segment.map Prod.snd).Perm
            ((finRange n).flatMap fun w => (segments (input w))[k]?.getD []))) ∧
    ∃ bound, ∀ actions s, run Fed.step (Fed.start input) actions = some s →
      actions.length ≤ bound := by
  refine ⟨fun s reach => ?_, ?_⟩
  · have inv := Fed.inv_reach pos common reach
    refine ⟨inv.view_initial, ?_, inv.progress common, fun done => ⟨?_, ?_⟩⟩
    · intro w ahead v marker behind split kind
      obtain ⟨later, whole⟩ := inv.view_initial w
      refine ⟨view isMarker w behind ++ later, prefix_append _ _, ?_⟩
      rw [← whole, split]
      simp [kind]
    · rw [← common ⟨0, pos⟩, ← inv.view_returned done ⟨0, pos⟩, Tagged.filter_view]
    · intro k segment found
      have parts : ∀ w, (segments (input w))[k]? = some (own w segment) := by
        intro w
        rw [segments, ← inv.view_returned done w, Tagged.splitOnP_view, List.getElem?_map, found,
          map_some]
      refine ⟨parts, ?_⟩
      simpa [parts] using Tagged.perm_flatMap_own segment
  · refine ⟨(Fed.start input).weight, fun actions s executed => ?_⟩
    have bound := Transition.run_length_le (Fed.Inv input)
      (fun _ _ _ inv moves => Fed.inv_step pos common inv moves)
      (fun _ _ _ inv moves => Fed.weight_step inv moves) (Fed.inv_start pos) executed
    omega

/-- Two workers with one watermark, one of them with a record on either side of it: runs are
bounded, and one of them ends with the watermark sent once. -/
theorem alignedMerge_aligns_two :
    let input : Fin 2 → List Record := fun w =>
      if w = 0 then [{ offset := 1 }, newWatermark 5, { offset := 2 }] else [newWatermark 5]
    (∃ s, Reach Fed.step Always (Fed.start input) s ∧ s.merge.loop = .returned ∧
      (s.merge.out.map Prod.snd).filter isMarker = [newWatermark 5] ∧
      ∀ w, view isMarker w s.merge.out <+: input w) ∧
    ∃ bound, ∀ actions s, run Fed.step (Fed.start input) actions = some s →
      actions.length ≤ bound := by
  intro input
  obtain ⟨aligned, bounded⟩ := alignedMerge_aligns (by decide) input [newWatermark 5] (by decide)
  obtain ⟨s, reach, done⟩ := Reach.exists_of_run Fed.step (Fed.start input)
    ([.produce 1, .produce 0, .produce 0, .produce 0, .close 0, .close 1] ++
      ([.take 0, .forward 0, .receive, .send, .take 0, .forward 0, .receive, .take 1, .forward 1,
        .receive,
        .send, .signal, .signal, .signal, .unpark 0, .take 0, .forward 0, .receive, .send,
          .finish 0,
        .unpark 1, .finish 1, .ret] : List (MergeAction 2)).map .merge)
    (fun s => decide (s.merge.loop = .returned)) (by decide)
  have returned := of_decide_eq_true done
  obtain ⟨views, -, -, ends⟩ := aligned s reach
  exact ⟨⟨s, reach, returned, (ends returned).1, views⟩, bounded⟩

end Weibo.Pipeline
