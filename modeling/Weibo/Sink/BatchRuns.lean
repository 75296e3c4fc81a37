import Weibo.Lib.Transition
import Weibo.Sink.BatchWriter

/-!
# Runs of the batch writer

A call of `batchWriter.run` beside the pipeline that fills, closes and cancels its input. When
nothing fails, the entries written, in flushes, buffered and in the loop's hand are those of the
records received.
-/

namespace Weibo.Sink

open List Option

structure BatchRun (τ : Type) where
  writer : BatchWriter τ := {}
  input : List Record := []
  shut : Bool := false
  cancelled : Bool := false
  received : List Record := []

inductive BatchEvent
  | arrive (r : Record)
  | close
  | cancel
  | move (a : BatchAction)

namespace BatchRun

variable {τ : Type} {cfg : BatchConfig τ}

def step (cfg : BatchConfig τ) (s : BatchRun τ) : BatchEvent → Option (BatchRun τ)
  | .arrive r => if s.shut then none else some { s with input := s.input ++ [r] }
  | .close => some { s with shut := true }
  | .cancel => some { s with cancelled := true }
  | .move a => (s.writer.step cfg s.input s.shut s.cancelled a).map fun (writer, rest) =>
    { s with
      writer, input := rest
      received := s.received ++ s.input.take (s.input.length - rest.length) }

/-- No flush fails. -/
def Fine (_ : BatchRun τ) (e : BatchEvent) : Prop := ∀ i, e ≠ .move (.flushed i false)

end BatchRun

namespace BatchWriter

variable {τ : Type} {cfg : BatchConfig τ} {b t : BatchWriter τ} {input rest : List Record}
  {shut cancelled : Bool}

def stock (cfg : BatchConfig τ) (b : BatchWriter τ) : List τ :=
  b.written ++ b.flights.flatten ++ b.batch ++ b.hand.filterMap (entryOf cfg)

/-- The state of a `run` call in which nothing has failed. -/
structure Sound (cfg : BatchConfig τ) (b : BatchWriter τ) : Prop where
  failed : b.failed = none
  errCh : b.errCh = false
  nonempty : ∀ batch ∈ b.flights, batch ≠ []
  ended : b.loop = .finishing ∨ b.loop = .returned → b.batch = []
  returned : b.loop = .returned → b.flights = []
  alone : cfg.async = false → b.flights.length ≤ 1 ∧
    (b.loop ≠ .flushing → b.loop ≠ .finishing → b.flights = [])

theorem flushed_doFlush (b : BatchWriter τ) :
    b.doFlush.written ++ b.doFlush.flights.flatten ++ b.doFlush.batch =
      b.written ++ b.flights.flatten ++ b.batch := by
  by_cases empty : b.batch = [] <;> simp [doFlush, empty]

theorem stock_landed (i : Nat) {batch : List τ} (found : b.flights[i]? = some batch)
    (held : (b.landed cfg i batch true).hand = b.hand) :
    ((b.landed cfg i batch true).stock cfg).Perm (b.stock cfg) ∧
      (b.flights.length ≤ 1 → (b.landed cfg i batch true).stock cfg = b.stock cfg) := by
  have moved : (b.landed cfg i batch true).stock cfg =
      b.written ++ (batch ++ (b.flights.eraseIdx i).flatten) ++ b.batch ++
        b.hand.filterMap (entryOf cfg) := by
    rw [stock, held]
    simp [landed]
  have split : (batch ++ (b.flights.eraseIdx i).flatten).Perm b.flights.flatten := by
    rw [← Multiset.coe_eq_coe, ← Multiset.coe_add]
    exact (flights_split found).symm
  rw [moved, stock]
  refine ⟨((split.append_left _).append_right _).append_right _, fun single => ?_⟩
  obtain ⟨inside, rfl⟩ := List.getElem?_eq_some_iff.1 found
  obtain ⟨only, one⟩ := length_eq_one_iff.1 (le_antisymm single (Nat.one_le_of_lt inside))
  obtain rfl : i = 0 := by omega
  simp [one]

structure Conserves (cfg : BatchConfig τ) (b t : BatchWriter τ) (got : List Record) : Prop where
  sound : t.Sound cfg
  perm : (t.stock cfg).Perm (b.stock cfg ++ got.filterMap (entryOf cfg))
  order : cfg.async = false → t.stock cfg = b.stock cfg ++ got.filterMap (entryOf cfg)

theorem Conserves.of_eq {got : List Record} (sound : t.Sound cfg)
    (same : t.stock cfg = b.stock cfg ++ got.filterMap (entryOf cfg)) : Conserves cfg b t got :=
  ⟨sound, same ▸ .refl _, fun _ => same⟩

theorem Sound.hand_eq (sound : b.Sound cfg)
    (free : ∀ r, b.loop ≠ .adding r ∧ b.loop ≠ .drainAdding r) : b.hand = [] :=
  hand_of_loop sound.failed free

theorem Sound.goto (sound : b.Sound cfg) (idle : cfg.async = false → b.flights = [])
    {loop : BatchLoop} (going : loop ≠ .finishing ∧ loop ≠ .returned) :
    { b with loop := loop }.Sound cfg :=
  ⟨sound.failed, sound.errCh, sound.nonempty, fun stopped => (stopped.elim going.1 going.2).elim,
    fun stopped => (going.2 stopped).elim, fun sync => ⟨(sound.alone sync).1, fun _ _ => idle sync⟩⟩

theorem Sound.finish (sound : b.Sound cfg) (idle : cfg.async = false → b.flights = []) :
    { b.doFlush with loop := .finishing }.Sound cfg := by
  by_cases empty : b.batch = []
  · simp only [doFlush, empty, if_true]
    exact ⟨sound.failed, sound.errCh, sound.nonempty, fun _ => rfl, BatchLoop.noConfusion,
      fun sync => ⟨(sound.alone sync).1, fun _ never => absurd rfl never⟩⟩
  · simp only [doFlush, empty, if_false]
    refine ⟨sound.failed, sound.errCh, ?_, fun _ => rfl, BatchLoop.noConfusion,
      fun sync => ⟨?_, ?_⟩⟩
    · exact forall_mem_append.2 ⟨sound.nonempty, forall_mem_singleton.2 empty⟩
    · rw [idle sync]
      exact le_refl _
    · exact fun _ never => absurd rfl never

theorem Sound.loopFlush (sound : b.Sound cfg) (idle : cfg.async = false → b.flights = []) :
    (b.loopFlush cfg).Sound cfg ∧
      (b.loopFlush cfg).stock cfg = b.written ++ b.flights.flatten ++ b.batch := by
  by_cases empty : b.batch = []
  · rw [BatchWriter.loopFlush, if_pos empty]
    refine ⟨sound.goto idle ⟨BatchLoop.noConfusion, BatchLoop.noConfusion⟩, ?_⟩
    simp [stock, hand, sound.failed]
  · rw [BatchWriter.loopFlush, if_neg empty]
    refine ⟨⟨by simp [sound.failed], ?_, ?_, fun never => ?_, fun never => ?_, fun sync => ?_⟩, ?_⟩
    · simp [doFlush, empty, sound.errCh]
    · simp only [doFlush, empty, if_false]
      exact forall_mem_append.2 ⟨sound.nonempty, forall_mem_singleton.2 empty⟩
    · cases async : cfg.async <;> simp [async] at never
    · cases async : cfg.async <;> simp [async] at never
    · simp [doFlush, empty, sync, idle sync]
    · have free : ({ b.doFlush with loop := if cfg.async then .select else .flushing } :
          BatchWriter τ).hand = [] := by
        cases async : cfg.async <;> simp [hand, sound.failed]
      rw [stock, free]
      simpa using flushed_doFlush b

theorem Sound.idle (sound : b.Sound cfg) (free : b.loop ≠ .flushing) (running : b.loop ≠ .finishing)
    (sync : cfg.async = false) : b.flights = [] :=
  (sound.alone sync).2 free running

theorem Sound.push (sound : b.Sound cfg) (running : b.loop ≠ .finishing ∧ b.loop ≠ .returned)
    (t : τ) : { b with batch := b.batch ++ [t] }.Sound cfg :=
  ⟨sound.failed, sound.errCh, sound.nonempty,
    fun stopped => (stopped.elim running.1 running.2).elim,
    sound.returned, sound.alone⟩

theorem Sound.add (sound : b.Sound cfg) {r : Record} (now : b.loop = .adding r)
    (accepts : cfg.convert r ≠ .fail) : Conserves cfg b (b.add cfg r) [] := by
  have idle := sound.idle (by simp [now]) (by simp [now])
  cases converted : cfg.convert r with
  | entry t =>
    have pushed := sound.push (by simp [now]) t
    simp only [BatchWriter.add, converted]
    split
    · obtain ⟨flushed, kept⟩ := pushed.loopFlush idle
      refine .of_eq flushed ?_
      rw [kept]
      simp [stock, hand, now, entryOf, converted]
    · refine .of_eq (pushed.goto idle ⟨BatchLoop.noConfusion, BatchLoop.noConfusion⟩) ?_
      simp [stock, hand, now, sound.failed, entryOf, converted]
  | skip =>
    simp only [BatchWriter.add, converted]
    refine .of_eq (sound.goto idle ⟨BatchLoop.noConfusion, BatchLoop.noConfusion⟩) ?_
    simp [stock, hand, now, sound.failed, entryOf, converted]
  | fail => exact absurd converted accepts

theorem Sound.drainAdd (sound : b.Sound cfg) {r : Record} (now : b.loop = .drainAdding r)
    (accepts : cfg.convert r ≠ .fail) : Conserves cfg b (b.drainAdd cfg r) [] := by
  have idle := sound.idle (by simp [now]) (by simp [now])
  cases converted : cfg.convert r with simp only [BatchWriter.drainAdd, converted]
  | entry t =>
    refine .of_eq ((sound.push (by simp [now]) t).goto idle
      ⟨BatchLoop.noConfusion, BatchLoop.noConfusion⟩) ?_
    simp [stock, hand, now, sound.failed, entryOf, converted]
  | skip =>
    refine .of_eq (sound.goto idle ⟨BatchLoop.noConfusion, BatchLoop.noConfusion⟩) ?_
    simp [stock, hand, now, sound.failed, entryOf, converted]
  | fail => exact absurd converted accepts

theorem Sound.landed (sound : b.Sound cfg) {i : Nat} {batch : List τ}
    (found : b.flights[i]? = some batch) : Conserves cfg b (b.landed cfg i batch true) [] := by
  have held : (b.landed cfg i batch true).hand = b.hand := by
    by_cases now : b.loop = .flushing <;> simp [BatchWriter.landed, hand, now, sound.failed]
  obtain ⟨perm, same⟩ := stock_landed i found held
  obtain ⟨inside, -⟩ := List.getElem?_eq_some_iff.1 found
  have sub := eraseIdx_sublist b.flights i
  refine ⟨⟨sound.failed, sound.errCh, fun x mem => sound.nonempty x (sub.subset mem),
    fun stopped => ?_,
    fun stopped => ?_, fun sync => ?_⟩, by simpa using perm, fun sync => ?_⟩
  · by_cases now : b.loop = .flushing
    · simp [BatchWriter.landed, now] at stopped
    · exact sound.ended (by simpa [BatchWriter.landed, now] using stopped)
  · by_cases now : b.loop = .flushing
    · simp [BatchWriter.landed, now] at stopped
    · have gone := sound.returned (by simpa [BatchWriter.landed, now] using stopped)
      simp [gone] at inside
  · have none : b.flights.eraseIdx i = [] := by
      apply eq_nil_of_length_eq_zero
      rw [length_eraseIdx_of_lt inside]
      exact Nat.sub_eq_zero_of_le (sound.alone sync).1
    exact ⟨by simp [BatchWriter.landed, none], fun _ _ => by simp [BatchWriter.landed, none]⟩
  · rw [filterMap_nil, append_nil]
    exact same (sound.alone sync).1

theorem Sound.step (sound : b.Sound cfg) (accepts : ∀ r, cfg.convert r ≠ .fail) {a : BatchAction}
    (fine : ∀ i, a ≠ .flushed i false) (moves : b.step cfg input shut cancelled a = some (t,
    rest)) : ∃ got, input = got ++ rest ∧ Conserves cfg b t got := by
  have goes {loop : BatchLoop} (free : b.loop = .select ∨ b.loop = .draining)
      (going : loop ≠ .finishing ∧ loop ≠ .returned) : { b with loop := loop }.Sound cfg :=
    sound.goto (sound.idle (by rcases free with now | now <;> simp [now])
      (by rcases free with now | now <;> simp [now])) going
  have finishes (free : b.loop = .select ∨ b.loop = .draining) :
      Conserves cfg b { b.doFlush with loop := .finishing } [] := by
    refine .of_eq (sound.finish (sound.idle (by rcases free with now | now <;> simp [now])
      (by rcases free with now | now <;> simp [now]))) ?_
    have held : b.hand = [] := sound.hand_eq (by rcases free with now | now <;> simp [now])
    have free : ({ b.doFlush with loop := .finishing } : BatchWriter τ).hand = [] := by
      simp [hand, sound.failed]
    rw [stock, stock, held, free]
    simpa using flushed_doFlush b
  cases a with
  | take =>
    simp only [BatchWriter.step] at moves
    split at moves
    next r tail now =>
      cases moves
      refine ⟨[r], rfl, .of_eq (goes (.inl now) ⟨BatchLoop.noConfusion, BatchLoop.noConfusion⟩) ?_⟩
      simp [stock, hand, now, sound.failed]
    next r tail now =>
      cases moves
      refine ⟨[r], rfl, .of_eq (goes (.inr now) ⟨BatchLoop.noConfusion, BatchLoop.noConfusion⟩) ?_⟩
      simp [stock, hand, now, sound.failed]
    · cases moves
  | add =>
    simp only [BatchWriter.step] at moves
    split at moves
    next r now =>
      cases moves
      exact ⟨[], rfl, sound.add now (accepts r)⟩
    next r now =>
      cases moves
      exact ⟨[], rfl, sound.drainAdd now (accepts r)⟩
    · cases moves
  | tick =>
    obtain ⟨ready, ⟨⟩⟩ := ite_none_right_eq_some.1 moves
    obtain ⟨flushed, kept⟩ := sound.loopFlush (sound.idle (by simp [ready.1]) (by simp [ready.1]))
    refine ⟨[], rfl, .of_eq flushed ?_⟩
    rw [kept]
    simp [stock, hand, ready.1, sound.failed]
  | flushed i ok =>
    obtain rfl : ok = true := by
      cases ok with
      | true => rfl
      | false => exact absurd rfl (fine i)
    simp only [BatchWriter.step] at moves
    split at moves
    next batch found =>
      cases moves
      exact ⟨[], rfl, sound.landed found⟩
    · cases moves
  | observe =>
    obtain ⟨ready, -⟩ := ite_none_right_eq_some.1 moves
    rw [sound.errCh] at ready
    exact absurd ready.2 Bool.false_ne_true
  | cancel =>
    obtain ⟨ready, ⟨⟩⟩ := ite_none_right_eq_some.1 moves
    refine ⟨[], rfl, .of_eq (goes (.inl ready.1) ⟨BatchLoop.noConfusion, BatchLoop.noConfusion⟩) ?_⟩
    simp [stock, hand, ready.1, sound.failed]
  | deadline =>
    obtain ⟨ready, ⟨⟩⟩ := ite_none_right_eq_some.1 moves
    exact ⟨[], rfl, finishes (.inr ready)⟩
  | closed =>
    obtain ⟨ready, ⟨⟩⟩ := ite_none_right_eq_some.1 moves
    exact ⟨[], rfl, finishes ready.1⟩
  | ret =>
    obtain ⟨ready, ⟨⟩⟩ := ite_none_right_eq_some.1 moves
    refine ⟨[], rfl,
      .of_eq ⟨sound.failed, sound.errCh, sound.nonempty, fun _ => sound.ended (.inl ready.1),
      fun _ => ready.2, fun sync => ⟨(sound.alone sync).1, fun _ _ => ready.2⟩⟩ ?_⟩
    simp [stock, hand, ready.1]

end BatchWriter

namespace BatchRun

variable {τ : Type} {cfg : BatchConfig τ} {s : BatchRun τ}

theorem sound_of_reach (accepts : ∀ r, cfg.convert r ≠ .fail)
    (reach : Transition.Reach (step cfg) Fine {} s) :
    s.writer.Sound cfg ∧
      (s.writer.stock cfg).Perm (s.received.filterMap (BatchWriter.entryOf cfg)) ∧
      (cfg.async = false →
        s.writer.stock cfg = s.received.filterMap (BatchWriter.entryOf cfg)) := by
  let holds (s : BatchRun τ) : Prop := s.writer.Sound cfg ∧
    (s.writer.stock cfg).Perm (s.received.filterMap (BatchWriter.entryOf cfg)) ∧
    (cfg.async = false → s.writer.stock cfg = s.received.filterMap (BatchWriter.entryOf cfg))
  change holds s
  refine reach.invariant ?_ ?_
  · exact ⟨⟨rfl, rfl, by simp, by simp, fun _ => rfl, fun _ => ⟨by simp, fun _ _ => rfl⟩⟩, .refl _,
      fun _ => rfl⟩
  · rintro s e t ⟨sound, perm, order⟩ fine moves
    cases e with
    | arrive r =>
      obtain ⟨-, rfl⟩ := Transition.of_ite_none moves
      exact ⟨sound, perm, order⟩
    | close | cancel =>
      cases moves
      exact ⟨sound, perm, order⟩
    | move a =>
      obtain ⟨⟨writer, rest⟩, moved, rfl⟩ := map_eq_some_iff.1 moves
      obtain ⟨got, same, conserves⟩ := sound.step accepts (fun i is => fine i (is ▸ rfl)) moved
      have taken : s.input.take (s.input.length - rest.length) = got := by
        simp [same]
      change _ ∧ (_ : List τ).Perm (filterMap _ (_ ++ List.take _ _)) ∧
        (_ → _ = filterMap _ (_ ++ List.take _ _))
      rw [taken, filterMap_append]
      refine ⟨conserves.sound, conserves.perm.trans (perm.append_right _), fun sync => ?_⟩
      rw [conserves.order sync, order sync]

/-- For every configuration, input and interleaving without failures: no flush gets an empty batch,
and when `run` has returned, every flush has finished and the entries written are those of the
records received, in their order unless flushes are asynchronous. -/
theorem delivers_each_once (cfg : BatchConfig τ) (accepts : ∀ r, cfg.convert r ≠ .fail)
    (reach : Transition.Reach (step cfg) Fine {} s) : (∀ batch ∈ s.writer.flights, batch ≠ []) ∧
    (s.writer.loop = .returned → s.writer.flights = [] ∧
      (s.writer.written : Multiset τ) = s.received.filterMap (BatchWriter.entryOf cfg) ∧
      (cfg.async = false → s.writer.written = s.received.filterMap (BatchWriter.entryOf cfg))) := by
  obtain ⟨sound, perm, order⟩ := sound_of_reach accepts reach
  refine ⟨sound.nonempty, fun returned => ?_⟩
  have all : s.writer.stock cfg = s.writer.written := by
    simp [BatchWriter.stock, sound.returned returned, sound.ended (.inr returned),
      sound.hand_eq (by simp [returned])]
  rw [all] at perm order
  exact ⟨sound.returned returned, Multiset.coe_eq_coe.2 perm, order⟩

def valueBatches : BatchConfig Bytes where
  batchSize := 2
  flushInterval := 1
  async := false
  convert r := .entry r.value

instance (s : BatchRun τ) (e : BatchEvent) : Decidable (Fine s e) :=
  match e with
  | .move (.flushed i false) => isFalse fun fine => fine i rfl
  | .arrive _ | .close | .cancel | .move (.flushed _ true) | .move .take | .move .add | .move .tick
  | .move .observe | .move .cancel | .move .deadline | .move .closed | .move .ret =>
    isTrue (by simp [Fine])

/-- A full batch, one that the ticker flushes and one that is flushed when the input closes. -/
theorem value_delivered_once : ∃ s : BatchRun Bytes, s.writer.loop = .returned ∧
    s.writer.written = s.received.filterMap (BatchWriter.entryOf valueBatches) ∧
    s.received = [{ value := [7] }, { value := [8] }, { value := [9] }, { value := [7] }] := by
  obtain ⟨s, reach, ends⟩ := Transition.Reach.exists_of_guarded (step valueBatches) Fine {}
    [.arrive { value := [7] }, .arrive { value := [8] }, .move .take, .move .add, .move .take,
      .move .add,
      .move (.flushed 0 true), .arrive { value := [9] }, .move .take, .move .add, .move .tick,
      .move (.flushed 0 true), .arrive { value := [7] }, .move .take, .move .add, .close,
        .move .closed,
      .move (.flushed 0 true), .move .ret]
    (fun s => s.writer.loop = .returned ∧
      s.received = [{ value := [7] }, { value := [8] }, { value := [9] }, { value := [7] }])
        (by decide)
  obtain ⟨returned, received⟩ := of_decide_eq_true ends
  exact ⟨s, returned,
    ((delivers_each_once valueBatches (by simp [valueBatches]) reach).2 returned).2.2 rfl, received⟩

end BatchRun

end Weibo.Sink
