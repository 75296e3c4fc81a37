import Weibo.Pipeline.AlignedMerge

/-!
# The alignment invariant

Every record that a worker has put on its output channel is in one place: sent downstream, held by
the merge loop, in `fanIn`, held by the fan-in goroutine or still in the channel. `counted` holds
the workers whose copy of the marker `next` was taken and that were not resumed.
-/

namespace Weibo.Pipeline.Merge

open List Function

open Tagged (own view)
open Record (isMarker)

variable {n : Nat}

def held : FanIn → List Record
  | .send r => [r]
  | _ => []

/-- What the merge loop has taken from worker `w` and not sent yet. -/
def reserved (counted : Finset (Fin n)) (next : Record) : MergeLoop n → Fin n → List Record
  | .receive, w => if w ∈ counted then [next] else []
  | .send v r, w => if w ∈ counted then [next] else if w = v then [r] else []
  | .sendMarker _ r, _ => [r]
  | .resume _, _ => []
  | .returned, _ => []

/-- The parking discipline of one worker: `queue` are its records in `fanIn`. -/
structure Parking (counted : Prop) (queue : List Record) (fan : FanIn) (token : Bool) : Prop where
  waits : counted → fan = .parked ∧ token = false ∧ queue = []
  last : ¬counted → fan = .parked → token = false →
    ∃ data marker, queue = data ++ [marker] ∧ (∀ r ∈ data, r.isMarker = false) ∧
      marker.isMarker = true
  data : ¬counted → ¬(fan = .parked ∧ token = false) → ∀ r ∈ queue, r.isMarker = false
  signalled : token = true → fan = .parked

def LoopOk (m : Merge n) (counted : Finset (Fin n)) : MergeLoop n → Prop
  | .receive => counted.card = m.arrived ∧ m.arrived < n
  | .send v r => counted.card = m.arrived ∧ m.arrived < n ∧ v ∉ counted ∧ r.isMarker = false
  | .sendMarker _ r => counted = Finset.univ ∧ m.arrived = 0 ∧ r.isMarker = true
  | .resume i => m.arrived = 0 ∧ ∀ w : Fin n, w ∈ counted ↔ i ≤ w
  | .returned => m.fanIn = [] ∧ counted = ∅ ∧ ∀ w, m.fan w = .done

/-- The alignment invariant for the records `hist` sent by the workers. -/
structure Aligned (hist : Fin n → List Record) (counted : Finset (Fin n)) (next : Record)
    (m : Merge n) : Prop where
  history : ∀ w, hist w = view isMarker w m.out ++ reserved counted next m.loop w ++
    own w m.fanIn ++ held (m.fan w) ++ m.workerOuts w
  parking : ∀ w, Parking (w ∈ counted) (own w m.fanIn) (m.fan w) (m.resume w)
  marker : counted.Nonempty → next.isMarker = true
  loop : LoopOk m counted m.loop
  finished : ∀ w, m.fan w = .done → m.closed w = true ∧ m.workerOuts w = []

def AlignedAt (hist : Fin n → List Record) (m : Merge n) : Prop :=
  ∃ counted next, Aligned hist counted next m

theorem aligned_start (pos : 0 < n) : AlignedAt (fun _ => []) (start : Merge n) := by
  refine ⟨∅, {}, ?_, ?_, ?_, ?_, ?_⟩
  · intro w
    simp [start, reserved, held]
  · intro w
    constructor <;> simp [start]
  · simp
  · exact ⟨rfl, pos⟩
  · simp [start]

variable {hist : Fin n → List Record} {m t : Merge n}

theorem aligned_offer {w : Fin n} {r : Record}
    (aligned : AlignedAt hist m) (running : m.closed w = false) (sent : m.offer w r = some t) :
    AlignedAt (update hist w (hist w ++ [r])) t := by
  obtain ⟨counted, next, aligned⟩ := aligned
  simp only [offer] at sent
  obtain ⟨-, rfl⟩ := Transition.of_ite_some sent
  refine ⟨counted, next, ?_, aligned.parking, aligned.marker, aligned.loop, ?_⟩
  · intro v
    by_cases same : v = w
    · subst same
      simp [aligned.history v]
    · simpa [same] using aligned.history v
  · intro v done
    have drained := aligned.finished v done
    have other : v ≠ w := by
      rintro rfl
      simp [running] at drained
    simpa [other] using drained

theorem aligned_close (w : Fin n) (aligned : AlignedAt hist m) : AlignedAt hist (m.close w) := by
  obtain ⟨counted, next, aligned⟩ := aligned
  refine ⟨counted, next, aligned.history, aligned.parking, aligned.marker, aligned.loop, ?_⟩
  intro v done
  have drained := aligned.finished v done
  refine ⟨?_, drained.2⟩
  by_cases same : v = w
  · simp [close, same]
  · simpa [close, same] using drained.1

/-! ## The moves of the fan-in goroutines -/

section FanIn

variable {hist : Fin n → List Record} {counted : Finset (Fin n)} {next : Record} {m : Merge n}

variable {w : Fin n}

theorem Aligned.localMove (aligned : Aligned hist counted next m) {t : Merge n}
    (free : w ∉ counted) (running : m.fan w ≠ .done) (loop : t.loop = m.loop)
    (arrived : t.arrived = m.arrived) (out : t.out = m.out) (closed : t.closed = m.closed)
    (frame : ∀ v, v ≠ w → own v t.fanIn = own v m.fanIn ∧ t.fan v = m.fan v ∧
      t.resume v = m.resume v ∧ t.workerOuts v = m.workerOuts v)
    (conserved : own w t.fanIn ++ held (t.fan w) ++ t.workerOuts w =
      own w m.fanIn ++ held (m.fan w) ++ m.workerOuts w)
    (parking : Parking False (own w t.fanIn) (t.fan w) (t.resume w))
    (finished : t.fan w = .done → t.closed w = true ∧ t.workerOuts w = []) :
      Aligned hist counted next t := by
  refine ⟨?_, ?_, aligned.marker, ?_, ?_⟩
  · intro v
    by_cases same : v = w
    · subst same
      simp only [append_assoc] at conserved
      simp only [aligned.history v, out, loop, append_assoc, conserved]
    · obtain ⟨queue, fan, -, channel⟩ := frame v same
      rw [aligned.history v, out, loop, queue, fan, channel]
  · intro v
    by_cases same : v = w
    · subst same
      simpa [free] using parking
    · obtain ⟨queue, fan, token, -⟩ := frame v same
      rw [queue, fan, token]
      exact aligned.parking v
  · have before := aligned.loop
    rw [loop]
    cases now : m.loop with rw [now] at before
    | returned =>
      exact absurd (before.2.2 w) running
    | _ =>
      simpa [LoopOk, arrived] using before
  · intro v done
    by_cases same : v = w
    · subst same
      exact finished done
    · obtain ⟨-, fan, -, channel⟩ := frame v same
      rw [closed, channel]
      exact aligned.finished v (fan ▸ done)

theorem Aligned.free (aligned : Aligned hist counted next m)
    (moving : m.fan w ≠ .parked) : w ∉ counted :=
  fun mem => moving ((aligned.parking w).waits mem).1

theorem Aligned.moving (aligned : Aligned hist counted next m) (moving : m.fan w ≠ .parked) :
    (∀ r ∈ own w m.fanIn, r.isMarker = false) ∧ m.resume w = false := by
  have before := aligned.parking w
  refine ⟨before.data (aligned.free moving) fun parked => moving parked.1, ?_⟩
  cases token : m.resume w with
  | false => rfl
  | true => exact absurd (before.signalled token) moving

theorem Aligned.take (aligned : Aligned hist counted next m) {r : Record}
    {rest : List Record} (idle : m.fan w = .receive) (first : m.workerOuts w = r :: rest) :
    Aligned hist counted next { m with
      workerOuts := update m.workerOuts w rest
      fan := update m.fan w (.send r) } := by
  obtain ⟨data, unsignalled⟩ := aligned.moving (w := w) (by simp [idle])
  refine aligned.localMove (aligned.free (w := w) (by simp [idle])) (by simp [idle])
    rfl rfl rfl rfl ?_ ?_ ?_ (by simp)
  · intro v other
    simp [other]
  · simp [idle, first, held]
  · exact ⟨False.elim, by simp, fun _ _ => data, by simp [unsignalled]⟩

theorem Aligned.forward (aligned : Aligned hist counted next m) {r : Record}
    (holds : m.fan w = .send r) :
    Aligned hist counted next { m with
      fanIn := m.fanIn ++ [(w, r)]
      fan := update m.fan w (if r.isMarker then .parked else .receive) } := by
  obtain ⟨data, unsignalled⟩ := aligned.moving (w := w) (by simp [holds])
  refine aligned.localMove (aligned.free (w := w) (by simp [holds])) (by simp [holds])
    rfl rfl rfl rfl ?_ ?_ ?_ ?_
  · intro v other
    simp [other, Ne.symm other]
  · cases r.isMarker <;> simp [holds, held]
  · cases kind : r.isMarker with
    | false =>
      refine ⟨False.elim, by simp, fun _ _ => ?_, by simp [unsignalled]⟩
      simpa [or_imp, forall_and, kind] using data
    | true =>
      refine ⟨False.elim, fun _ _ _ => ?_, by simp [unsignalled], by simp⟩
      exact ⟨own w m.fanIn, r, by simp, data, kind⟩
  · cases r.isMarker <;> simp

theorem Aligned.unpark (aligned : Aligned hist counted next m)
    (waits : m.fan w = .parked) (token : m.resume w = true) :
    Aligned hist counted next { m with
      resume := update m.resume w false
      fan := update m.fan w .receive } := by
  have before := aligned.parking w
  have free : w ∉ counted := fun mem => by simpa [token] using (before.waits mem).2.1
  refine aligned.localMove free (by simp [waits]) rfl rfl rfl rfl ?_ ?_ ?_ (by simp)
  · intro v other
    simp [other]
  · simp [waits, held]
  · exact ⟨False.elim, by simp, fun _ _ => before.data free (by simp [token]), by simp⟩

theorem Aligned.finish (aligned : Aligned hist counted next m)
    (idle : m.fan w = .receive) (drained : m.workerOuts w = []) (closed : m.closed w = true) :
    Aligned hist counted next { m with fan := update m.fan w .done } := by
  obtain ⟨data, unsignalled⟩ := aligned.moving (w := w) (by simp [idle])
  refine aligned.localMove (aligned.free (w := w) (by simp [idle])) (by simp [idle])
    rfl rfl rfl rfl ?_ ?_ ?_ fun _ => ⟨closed, drained⟩
  · intro v other
    simp [other]
  · simp [idle, held]
  · exact ⟨False.elim, by simp, fun _ _ => data, by simp [unsignalled]⟩

end FanIn

/-! ## The moves of the merge loop -/

section Loop

variable {hist : Fin n → List Record} {counted : Finset (Fin n)} {next : Record} {m : Merge n}
  {ms : List Record}

variable {w : Fin n} {r : Record} {rest : List (Fin n × Record)}

theorem Aligned.own_marker (aligned : Aligned hist counted next m)
    (first : m.fanIn = (w, r) :: rest) (kind : r.isMarker = true) :
    w ∉ counted ∧ m.fan w = .parked ∧ m.resume w = false ∧ own w rest = [] := by
  have before := aligned.parking w
  rw [first, Tagged.own_cons, if_pos rfl] at before
  have free : w ∉ counted := fun mem => by simpa using (before.waits mem).2.2
  have parked : m.fan w = .parked ∧ m.resume w = false := by
    by_contra moving
    simpa [kind] using before.data free moving r (by simp)
  obtain ⟨data, marker, split, plain, -⟩ := before.last free parked.1 parked.2
  cases data with
  | nil =>
    simp only [nil_append, cons.injEq] at split
    exact ⟨free, parked.1, parked.2, split.2⟩
  | cons d data =>
    simp only [cons_append, cons.injEq] at split
    simpa [← split.1, kind] using plain d (by simp)

theorem marker_unique {out : List (Fin n × Record)} {v : Fin n} {a b : Record} {as bs : List Record}
    (common : ∀ u, (hist u).filter isMarker <+: ms) (first :
    hist v = view isMarker v out ++ a :: as) (second : hist w = view isMarker w out ++ b :: bs)
    (left : a.isMarker = true) (right : b.isMarker = true) : a = b := by
  have va := common v
  have wb := common w
  rw [first, filter_append, Tagged.filter_view, filter_cons_of_pos left] at va
  rw [second, filter_append, Tagged.filter_view, filter_cons_of_pos right] at wb
  obtain ⟨_, va⟩ := va
  obtain ⟨_, wb⟩ := wb
  have both := va.trans wb.symm
  simp only [append_assoc, cons_append, append_cancel_left_eq,
    cons.injEq] at both
  exact both.1

theorem Aligned.next_eq (aligned : Aligned hist counted next m)
    (common : ∀ u, (hist u).filter isMarker <+: ms) (idle : m.loop = .receive) {v : Fin n} (first :
    m.fanIn = (w, r) :: rest) (kind : r.isMarker = true) (mem : v ∈ counted) : next = r := by
  have free := (aligned.own_marker first kind).1
  have counted : hist v = view isMarker v m.out ++ next ::
      (own v m.fanIn ++ held (m.fan v) ++ m.workerOuts v) := by
    simp [aligned.history v, idle, reserved, mem]
  have arriving : hist w = view isMarker w m.out ++ r ::
      (own w rest ++ held (m.fan w) ++ m.workerOuts w) := by
    simp [aligned.history w, idle, reserved, free, first]
  exact marker_unique common counted arriving (aligned.marker ⟨v, mem⟩) kind

theorem Aligned.count (aligned : Aligned hist counted next m) (common : ∀ u,
    (hist u).filter isMarker <+: ms) (idle : m.loop = .receive) (first : m.fanIn = (w, r) :: rest)
    (kind : r.isMarker = true) : AlignedAt hist ({ m with fanIn := rest }.accept w r) := by
  obtain ⟨free, waits, unsignalled, alone⟩ := aligned.own_marker first kind
  have bounds := aligned.loop
  simp only [idle, LoopOk] at bounds
  have grown : (insert w counted).card = m.arrived + 1 := by
    rw [Finset.card_insert_of_notMem free, bounds.1]
  have history : ∀ v, hist v = view isMarker v m.out ++
      (if v ∈ insert w counted then [r] else []) ++ own v rest ++ held (m.fan v) ++
        m.workerOuts v := by
    intro v
    have before := aligned.history v
    by_cases same : v = w
    · subst same
      simpa [idle, reserved, free, first] using before
    · by_cases mem : v ∈ counted
      · have copy := aligned.next_eq common idle first kind mem
        simpa [idle, reserved, mem, first, same, Ne.symm same, copy] using before
      · simpa [idle, reserved, mem, first, same, Ne.symm same] using before
  have parking : ∀ v, Parking (v ∈ insert w counted) (own v rest) (m.fan v) (m.resume v) := by
    intro v
    by_cases same : v = w
    · subst same
      exact ⟨fun _ => ⟨waits, unsignalled, alone⟩, by simp, by simp, by simp [unsignalled]⟩
    · simpa [same, first, Ne.symm same] using aligned.parking v
  simp only [accept, kind, if_true]
  split
  next more =>
    exact ⟨insert w counted, r, by simpa [idle, reserved] using history, parking, fun _ => kind,
      by simpa [LoopOk, idle] using ⟨grown, more⟩, aligned.finished⟩
  next full =>
    have all : insert w counted = Finset.univ := by
      apply Finset.eq_univ_of_card
      simp only [Fintype.card_fin]
      omega
    refine ⟨insert w counted, r, ?_, parking, fun _ => kind, ⟨all, rfl, kind⟩, aligned.finished⟩
    intro v
    have here : v ∈ insert w counted := all ▸ Finset.mem_univ v
    simpa [reserved, here] using history v

theorem Aligned.hold (aligned : Aligned hist counted next m) (idle : m.loop = .receive)
    (first : m.fanIn = (w, r) :: rest)
    (kind : r.isMarker = false) : AlignedAt hist ({ m with fanIn := rest }.accept w r) := by
  have before := aligned.parking w
  rw [first, Tagged.own_cons, if_pos rfl] at before
  have free : w ∉ counted := fun mem => by simpa using (before.waits mem).2.2
  have bounds := aligned.loop
  simp only [idle, LoopOk] at bounds
  simp only [accept, kind, Bool.false_eq_true, if_false]
  refine ⟨counted, next, ?_, ?_, aligned.marker, ⟨bounds.1, bounds.2, free, kind⟩,
    aligned.finished⟩
  · intro v
    have whole := aligned.history v
    by_cases same : v = w
    · subst same
      simpa [idle, reserved, free, first] using whole
    · by_cases mem : v ∈ counted <;>
        simpa [idle, reserved, mem, first, same, Ne.symm same] using whole
  · intro v
    by_cases same : v = w
    · subst same
      refine ⟨fun mem => absurd mem free, fun _ parked token => ?_, fun _ moving => ?_,
        before.signalled⟩
      · obtain ⟨data, marker, split, plain, last⟩ := before.last free parked token
        cases data with
        | nil =>
          simp only [nil_append, cons.injEq] at split
          simp [← split.1, kind] at last
        | cons d data =>
          simp only [cons_append, cons.injEq] at split
          exact ⟨data, marker, split.2, fun x mem => plain x (by simp [mem]), last⟩
      · exact fun x mem => before.data free moving x (by simp [mem])
    · simpa [first, Ne.symm same] using aligned.parking v

theorem aligned_move {t : Merge n} (pos : 0 < n) (aligned : AlignedAt hist m)
    (common : ∀ u, (hist u).filter isMarker <+: ms) (move : Move m t) : AlignedAt hist t := by
  obtain ⟨counted, next, aligned⟩ := aligned
  have before := aligned.loop
  cases move with
  | take w r rest idle first => exact ⟨counted, next, aligned.take idle first⟩
  | forward w r holds _ => exact ⟨counted, next, aligned.forward holds⟩
  | unpark w waits token => exact ⟨counted, next, aligned.unpark waits token⟩
  | finish w idle drained closed => exact ⟨counted, next, aligned.finish idle drained closed⟩
  | receive w r rest idle first =>
    cases kind : r.isMarker with
    | true => exact aligned.count common idle first kind
    | false => exact aligned.hold idle first kind
  | send w r holds =>
    simp only [holds, LoopOk] at before
    obtain ⟨card, bound, free, kind⟩ := before
    refine ⟨counted, next, ?_, aligned.parking, aligned.marker, ⟨card, bound⟩, aligned.finished⟩
    intro v
    have whole := aligned.history v
    by_cases same : v = w
    · subst same
      simpa [holds, reserved, kind, free] using whole
    · simpa [holds, reserved, kind, same, Ne.symm same] using whole
  | sendMarker w r holds =>
    simp only [holds, LoopOk] at before
    obtain ⟨all, zero, kind⟩ := before
    refine ⟨counted, next, ?_, aligned.parking, aligned.marker, ⟨zero, by simp [all]⟩,
      aligned.finished⟩
    intro v
    simpa [holds, reserved, kind] using aligned.history v
  | signal i now empty =>
    simp only [now, LoopOk] at before
    obtain ⟨zero, rank⟩ := before
    have mem : i ∈ counted := (rank i).2 le_rfl
    obtain ⟨waits, -, quiet⟩ := (aligned.parking i).waits mem
    refine ⟨counted.erase i, next, ?_, ?_, ?_, ⟨zero, ?_⟩, aligned.finished⟩
    · intro v
      simpa [now, reserved] using aligned.history v
    · intro v
      by_cases same : v = i
      · subst same
        exact ⟨by simp, by simp, by simp [quiet], by simp [waits]⟩
      · simpa [same] using aligned.parking v
    · rintro ⟨v, left⟩
      exact aligned.marker ⟨v, Finset.mem_of_mem_erase left⟩
    · intro v
      rw [Finset.mem_erase, rank v, ne_eq, Fin.ext_iff]
      omega
  | resumed i now past =>
    simp only [now, LoopOk] at before
    obtain ⟨zero, rank⟩ := before
    have none : counted = ∅ := by
      apply Finset.eq_empty_of_forall_notMem
      intro v mem
      have := (rank v).1 mem
      omega
    refine ⟨counted, next, ?_, aligned.parking, aligned.marker, ⟨by simp [none, zero], ?_⟩,
      aligned.finished⟩
    · intro v
      simpa [now, reserved, none] using aligned.history v
    · simpa [zero] using pos
  | ret idle drained done =>
    have none : counted = ∅ := by
      apply Finset.eq_empty_of_forall_notMem
      intro v mem
      simpa [done v] using ((aligned.parking v).waits mem).1
    refine ⟨counted, next, ?_, aligned.parking, aligned.marker, ⟨drained, none, done⟩,
      aligned.finished⟩
    intro v
    simpa [idle, reserved, none] using aligned.history v

end Loop

/-! ## Progress -/

section Progress

variable {hist : Fin n → List Record} {m : Merge n}

/-- No goroutine of the merge can move: everything received was sent, and each fan-in
goroutine has returned, is counted or waits for its worker. -/
structure Starved (counted : Finset (Fin n)) (m : Merge n) : Prop where
  idle : m.loop = .receive
  drained : m.fanIn = []
  waits : ∀ w, m.fan w = .done ∨ w ∈ counted ∨
    (m.fan w = .receive ∧ m.workerOuts w = [] ∧ m.closed w = false)
  unfinished : ∃ w, m.fan w ≠ .done

theorem Aligned.fan_waits {counted : Finset (Fin n)} {next : Record}
    (aligned : Aligned hist counted next m) (stuck : Transition.Stuck Merge.step m)
    (drained : m.fanIn = []) (w : Fin n) : m.fan w = .done ∨ w ∈ counted ∨
      (m.fan w = .receive ∧ m.workerOuts w = [] ∧ m.closed w = false) := by
  cases now : m.fan w with
  | done => exact .inl rfl
  | send r =>
    have blocked := stuck (.forward w)
    simp [step, now, drained, internalBuf] at blocked
  | parked =>
    refine .inr (.inl ?_)
    by_contra free
    cases token : m.resume w with
    | true =>
      have blocked := stuck (.unpark w)
      simp [step, now, token] at blocked
    | false =>
      obtain ⟨data, marker, split, -⟩ := (aligned.parking w).last free now token
      simp [drained] at split
  | receive =>
    cases channel : m.workerOuts w with
    | cons r rest =>
      have blocked := stuck (.take w)
      simp [step, now, channel] at blocked
    | nil =>
      cases closed : m.closed w with
      | true =>
        have blocked := stuck (.finish w)
        simp [step, now, channel, closed] at blocked
      | false => exact .inr (.inr ⟨rfl, rfl, rfl⟩)

theorem Aligned.starved {counted : Finset (Fin n)} {next : Record}
    (aligned : Aligned hist counted next m) (stuck : Transition.Stuck Merge.step m) :
    m.loop = .returned ∨ Starved counted m := by
  have before := aligned.loop
  cases now : m.loop with
  | returned => exact .inl rfl
  | send w r | sendMarker w r =>
    have blocked := stuck .send
    simp [step, now] at blocked
  | resume i =>
    simp only [now, LoopOk] at before
    have blocked := stuck .signal
    by_cases inside : i < n
    · have mem : (⟨i, inside⟩ : Fin n) ∈ counted := (before.2 ⟨i, inside⟩).2 le_rfl
      simp [step, now, inside, ((aligned.parking _).waits mem).2.1] at blocked
    · simp [step, now, inside] at blocked
  | receive =>
    have drained : m.fanIn = [] := by
      cases queue : m.fanIn with
      | nil => rfl
      | cons x rest =>
        have blocked := stuck .receive
        simp [step, now, queue] at blocked
    refine .inr ⟨now, drained, aligned.fan_waits stuck drained, ?_⟩
    by_contra all
    push Not at all
    have blocked := stuck .ret
    simp [step, now, drained, all] at blocked

end Progress

/-! ## Termination -/

def fanWeight : FanIn → Bool → Nat
  | .receive, _ => 1
  | .send _, _ => 7
  | .parked, false => 3
  | .parked, true => 2
  | .done, _ => 0

def loopWeight : MergeLoop n → Nat
  | .receive => 1
  | .send _ _ => 2
  | .sendMarker _ _ => 3
  | .resume _ => 2
  | .returned => 0

def weight (m : Merge n) : Nat :=
  ∑ w, (fanWeight (m.fan w) (m.resume w) + 7 * (m.workerOuts w).length) +
    3 * m.fanIn.length + loopWeight m.loop

theorem weight_local (w : Fin n) (frame : ∀ v, v ≠ w → t.fan v = m.fan v ∧ t.resume v = m.resume v ∧
      t.workerOuts v = m.workerOuts v)
    (lower : fanWeight (t.fan w) (t.resume w) + 7 * (t.workerOuts w).length +
        3 * t.fanIn.length + loopWeight t.loop <
      fanWeight (m.fan w) (m.resume w) + 7 * (m.workerOuts w).length +
        3 * m.fanIn.length + loopWeight m.loop) : t.weight < m.weight := by
  have sums := Transition.sum_local
    (fun v => fanWeight (m.fan v) (m.resume v) + 7 * (m.workerOuts v).length)
    (fun v => fanWeight (t.fan v) (t.resume v) + 7 * (t.workerOuts v).length) w
    fun v other => by
      obtain ⟨fan, token, channel⟩ := frame v other
      simp only [fan, token, channel]
  simp only [weight]
  omega

theorem weight_move (aligned : AlignedAt hist m) (move : Move m t) : t.weight < m.weight := by
  obtain ⟨counted, next, aligned⟩ := aligned
  cases move with
  | take w r rest idle first =>
    refine weight_local w (fun v other => by simp [other]) ?_
    simp [idle, first, fanWeight]
    omega
  | forward w r holds _ =>
    obtain ⟨-, unsignalled⟩ := aligned.moving (w := w) (by simp [holds])
    refine weight_local w (fun v other => by simp [other]) ?_
    cases kind : r.isMarker <;> simp [holds, fanWeight, unsignalled] <;> omega
  | unpark w waits token =>
    refine weight_local w (fun v other => by simp [other]) ?_
    simp [waits, token, fanWeight]
  | finish w idle drained _ =>
    refine weight_local w (fun v other => by simp [other]) ?_
    simp [idle, drained, fanWeight]
  | receive w r rest idle first =>
    refine weight_local w (fun v other => ?_) ?_
    · simp only [accept]
      split <;> [split; skip] <;> exact ⟨rfl, rfl, rfl⟩
    · simp only [accept]
      split <;> [split; skip] <;> simp [idle, first, loopWeight] <;> omega
  | send w r holds | sendMarker w r holds =>
    refine weight_local w (fun v _ => ⟨rfl, rfl, rfl⟩) ?_
    simp [holds, loopWeight]
  | signal i now empty =>
    have before := aligned.loop
    simp only [now, LoopOk] at before
    have mem : i ∈ counted := (before.2 i).2 le_rfl
    refine weight_local i (fun v other => by simp [other]) ?_
    simp [now, empty, ((aligned.parking i).waits mem).1, fanWeight, loopWeight]
  | resumed i now past => simp [weight, now, loopWeight]
  | ret idle drained done => simp [weight, idle, loopWeight]

end Weibo.Pipeline.Merge
