import Mathlib.Algebra.Order.Group.Multiset
import Mathlib.Tactic.Abel
import Weibo.Lib.Transition
import Weibo.Types.Record

/-!
# The batch writer

`batchWriter.run` converts records into entries, buffers them, and hands full batches, or partial
ones on a tick, to `flush`, which blocks the loop or runs in its own goroutine. On cancellation the
loop drains its input for a bounded time before the last flush.
-/

namespace Weibo.Sink

open List Transition

def defaultBatchSize : Nat := 100

inductive Conversion (τ : Type)
  | entry (t : τ)
  | skip
  | fail

structure BatchConfig (τ : Type) where
  batchSize : Int
  flushInterval : Duration
  async : Bool
  convert : Record → Conversion τ

/-- Where the loop of `run` is. -/
inductive BatchLoop
  | select
  | adding (r : Record)
  | flushing
  | draining
  | drainAdding (r : Record)
  | finishing
  | returned
  deriving DecidableEq

structure BatchWriter (τ : Type) where
  loop : BatchLoop := .select
  failed : Option Record := none
  batch : List τ := []
  flights : List (List τ) := []
  errCh : Bool := false
  written : List τ := []
  lost : List τ := []

inductive BatchAction
  | take
  | add
  | tick
  | flushed (i : Nat) (ok : Bool)
  | observe
  | cancel
  | deadline
  | closed
  | ret
  deriving DecidableEq

namespace BatchWriter

variable {τ : Type} {cfg : BatchConfig τ}

def threshold (cfg : BatchConfig τ) : Nat :=
  if cfg.batchSize ≤ 0 then defaultBatchSize else cfg.batchSize.toNat

/-- `doFlush`: a non-empty batch goes to a flush. -/
def doFlush (b : BatchWriter τ) : BatchWriter τ :=
  if b.batch = [] then b else { b with batch := [], flights := b.flights ++ [b.batch] }

/-- `doFlush` inside the loop: a synchronous flush holds the loop until it returns. -/
def loopFlush (cfg : BatchConfig τ) (b : BatchWriter τ) : BatchWriter τ :=
  if b.batch = [] then { b with loop := .select }
  else { b.doFlush with loop := if cfg.async then .select else .flushing }

def hand (b : BatchWriter τ) : List Record :=
  match b.loop with
  | .adding r | .drainAdding r => [r]
  | _ => b.failed.toList

/-- `add` of the main loop. -/
def add (cfg : BatchConfig τ) (b : BatchWriter τ) (r : Record) : BatchWriter τ :=
  match cfg.convert r with
  | .entry t =>
    if threshold cfg ≤ b.batch.length + 1 then loopFlush cfg { b with batch := b.batch ++ [t] }
    else { b with batch := b.batch ++ [t], loop := .select }
  | .skip => { b with loop := .select }
  | .fail => { b with loop := .finishing, failed := some r }

/-- `add` of the drain, which ignores a full batch. -/
def drainAdd (cfg : BatchConfig τ) (b : BatchWriter τ) (r : Record) : BatchWriter τ :=
  match cfg.convert r with
  | .entry t => { b with batch := b.batch ++ [t], loop := .draining }
  | .skip => { b with loop := .draining }
  | .fail => { b with loop := .finishing, failed := some r }

/-- A flush returns: success writes its batch, an error loses it; a synchronous error ends
the loop and an asynchronous one waits in `errCh`. -/
def landed (cfg : BatchConfig τ) (b : BatchWriter τ) (i : Nat) (batch : List τ) (ok : Bool) :
    BatchWriter τ :=
  let rest := { b with flights := b.flights.eraseIdx i }
  let loop : BatchLoop :=
    if b.loop = .flushing then (if ok then .select else .finishing) else b.loop
  if ok then { rest with written := b.written ++ batch, loop := loop }
  else { rest with lost := b.lost ++ batch, loop := loop, errCh := b.errCh || cfg.async }

/-- One move, on the buffered input `input`; the result is the new state and input. -/
def step (cfg : BatchConfig τ) (b : BatchWriter τ) (input : List Record) (shut cancelled : Bool) :
    BatchAction → Option (BatchWriter τ × List Record)
  | .take =>
    match b.loop, input with
    | .select, r :: rest => some ({ b with loop := .adding r }, rest)
    | .draining, r :: rest => some ({ b with loop := .drainAdding r }, rest)
    | _, _ => none
  | .add =>
    match b.loop with
    | .adding r => some (b.add cfg r, input)
    | .drainAdding r => some (b.drainAdd cfg r, input)
    | _ => none
  | .tick =>
    if b.loop = .select ∧ 0 < cfg.flushInterval then some (b.loopFlush cfg, input) else none
  | .flushed i ok =>
    match b.flights[i]? with
    | some batch => some (b.landed cfg i batch ok, input)
    | none => none
  | .observe =>
    if b.loop = .select ∧ b.errCh then some ({ b with loop := .finishing, errCh := false }, input)
    else none
  | .cancel =>
    if b.loop = .select ∧ cancelled then some ({ b with loop := .draining }, input) else none
  | .deadline =>
    if b.loop = .draining then some ({ b.doFlush with loop := .finishing }, input) else none
  | .closed =>
    if (b.loop = .select ∨ b.loop = .draining) ∧ input = [] ∧ shut then
      some ({ b.doFlush with loop := .finishing }, input)
    else none
  | .ret =>
    if b.loop = .finishing ∧ b.flights = [] then some ({ b with loop := .returned }, input)
    else none

/-! ## Conservation of entries -/

def entryOf (cfg : BatchConfig τ) (r : Record) : Option τ :=
  match cfg.convert r with
  | .entry t => some t
  | .skip | .fail => none

/-- The converted records `taken` are accounted for: each entry is written, lost, in a flush
or buffered. -/
structure Accounts (cfg : BatchConfig τ) (b : BatchWriter τ) (taken : List Record) : Prop where
  entries : (taken.filterMap (entryOf cfg) : Multiset τ) =
    b.written + b.lost + b.flights.flatten + b.batch
  converted : ∀ r ∈ taken, cfg.convert r ≠ .fail
  nonempty : ∀ batch ∈ b.flights, batch ≠ []
  failed : ∀ r ∈ b.failed, cfg.convert r = .fail ∧ (b.loop = .finishing ∨ b.loop = .returned)

def Idle (cfg : BatchConfig τ) (b : BatchWriter τ) : Prop :=
  (∀ r ∈ b.hand, cfg.convert r = .skip) ∧ b.batch = [] ∧ b.flights = [] ∧ b.lost = []

/-- Every received record is at the destination, as often as it was received, unless the
sink declined it. -/
def Delivered (cfg : BatchConfig τ) (b : BatchWriter τ) (received : List Record) : Prop :=
  (∀ r ∈ received, cfg.convert r ≠ .fail) ∧
    (received.filterMap (entryOf cfg) : Multiset τ) ≤ b.written

variable {b : BatchWriter τ}

theorem hand_of_loop (clean : b.failed = none)
    (free : ∀ r, b.loop ≠ .adding r ∧ b.loop ≠ .drainAdding r) : b.hand = [] := by
  cases now : b.loop with
  | adding r => exact absurd now (free r).1
  | drainAdding r => exact absurd now (free r).2
  | _ => simp [hand, now, clean]

variable {taken : List Record}

theorem Accounts.doFlush (accounts : b.Accounts cfg taken) : (b.doFlush).Accounts cfg taken := by
  by_cases empty : b.batch = []
  · simpa [BatchWriter.doFlush, empty] using accounts
  · refine ⟨?_, accounts.converted, ?_, ?_⟩
    · rw [accounts.entries]
      simp [BatchWriter.doFlush, empty, ← Multiset.coe_add, add_assoc]
    · intro batch mem
      simp only [BatchWriter.doFlush, empty, if_false, mem_append, mem_singleton] at mem
      rcases mem with old | rfl
      · exact accounts.nonempty batch old
      · exact empty
    · intro r mem
      simp only [BatchWriter.doFlush, empty, if_false] at mem ⊢
      exact accounts.failed r mem

variable {i : Nat} {batch : List τ}

theorem flights_split (found : b.flights[i]? = some batch) :
    (b.flights.flatten : Multiset τ) = batch + (b.flights.eraseIdx i).flatten := by
  obtain ⟨inside, rfl⟩ := List.getElem?_eq_some_iff.1 found
  rw [Multiset.coe_add, Multiset.coe_eq_coe, ← flatten_cons]
  exact (getElem_cons_eraseIdx_perm inside).symm.flatten

theorem Accounts.landed (accounts : b.Accounts cfg taken) (found : b.flights[i]? = some batch)
    (ok : Bool) : (b.landed cfg i batch ok).Accounts cfg taken := by
  have split := flights_split found
  have others : ∀ x ∈ b.flights.eraseIdx i, x ≠ [] := fun x mem =>
    accounts.nonempty x (mem_of_mem_eraseIdx mem)
  have stopped : ∀ r ∈ b.failed, b.loop ≠ .flushing := by
    intro r mem now
    rcases (accounts.failed r mem).2 with fin | fin <;> simp [now] at fin
  refine ⟨?_, accounts.converted, ?_, ?_⟩
  · rw [accounts.entries, split]
    cases ok <;> simp only [BatchWriter.landed, ← Multiset.coe_add, if_true, if_false,
      Bool.false_eq_true] <;> abel
  · cases ok <;> exact others
  · intro r mem
    have here : r ∈ b.failed := by cases ok <;> exact mem
    have loop := accounts.failed r here
    cases ok <;> simpa [BatchWriter.landed, stopped r here] using loop

theorem Accounts.clean (accounts : b.Accounts cfg taken)
    (running : b.loop ≠ .finishing ∧ b.loop ≠ .returned) : b.failed = none := by
  cases left : b.failed with
  | none => rfl
  | some r =>
    rcases (accounts.failed r left).2 with stopped | stopped
    · exact absurd stopped running.1
    · exact absurd stopped running.2

theorem hand_landed (accounts : b.Accounts cfg taken) (ok : Bool) :
    (b.landed cfg i batch ok).hand = b.hand := by
  by_cases now : b.loop = .flushing
  · have clean := accounts.clean (by simp [now])
    cases ok <;> simp [BatchWriter.landed, hand, now, clean]
  · cases ok <;> simp [BatchWriter.landed, hand, now]

theorem Accounts.goto (accounts : b.Accounts cfg taken)
    (clean : b.failed = none) (loop : BatchLoop) : { b with loop := loop }.Accounts cfg taken :=
  ⟨accounts.entries, accounts.converted, accounts.nonempty, by simp [clean]⟩

@[simp] theorem failed_doFlush (b : BatchWriter τ) : (b.doFlush).failed = b.failed := by
  simp only [BatchWriter.doFlush]
  split <;> rfl

@[simp] theorem written_doFlush (b : BatchWriter τ) : (b.doFlush).written = b.written := by
  simp only [BatchWriter.doFlush]
  split <;> rfl

theorem Accounts.loopFlush (accounts : b.Accounts cfg taken) (clean : b.failed = none) :
    (b.loopFlush cfg).Accounts cfg taken ∧ (b.loopFlush cfg).hand = [] ∧
      (b.loopFlush cfg).written = b.written := by
  by_cases empty : b.batch = []
  · rw [BatchWriter.loopFlush, if_pos empty]
    exact ⟨accounts.goto clean .select, by simp [hand, clean], rfl⟩
  · simp only [BatchWriter.loopFlush, empty, if_false]
    refine ⟨accounts.doFlush.goto (by simp [clean]) _, ?_, by simp⟩
    cases cfg.async <;> simp [hand, clean]

variable {r : Record}

theorem Accounts.push {t : τ} (accounts : b.Accounts cfg taken) (clean : b.failed = none)
    (converted : cfg.convert r = .entry t) (loop : BatchLoop) :
    { b with batch := b.batch ++ [t], loop := loop }.Accounts cfg (taken ++ [r]) := by
  refine ⟨?_, ?_, accounts.nonempty, by simp [clean]⟩
  · rw [filterMap_append, ← Multiset.coe_add, accounts.entries]
    have one : [r].filterMap (entryOf cfg) = [t] := by simp [entryOf, converted]
    simp only [one, ← Multiset.coe_add]
    abel
  · intro x mem
    rcases mem_append.1 mem with old | new
    · exact accounts.converted x old
    · rw [mem_singleton.1 new, converted]
      nofun

theorem Accounts.declined
    (accounts : b.Accounts cfg taken) (clean : b.failed = none) (skipped : cfg.convert r = .skip)
    (loop : BatchLoop) : { b with loop := loop }.Accounts cfg (taken ++ [r]) := by
  refine ⟨?_, ?_, accounts.nonempty, by simp [clean]⟩
  · rw [filterMap_append, ← Multiset.coe_add, accounts.entries]
    simp [entryOf, skipped]
  · intro x mem
    rcases mem_append.1 mem with old | new
    · exact accounts.converted x old
    · rw [mem_singleton.1 new, skipped]
      nofun

theorem Accounts.fail (accounts : b.Accounts cfg taken) (failed : cfg.convert r = .fail) :
    { b with loop := .finishing, failed := some r }.Accounts cfg taken := by
  refine { accounts with failed := fun x mem => ?_ }
  cases mem
  exact ⟨failed, .inl rfl⟩

structure Progress (cfg : BatchConfig τ) (b t : BatchWriter τ) (taken received : List Record) :
    Prop where
  accounts : ∃ more, t.Accounts cfg (taken ++ more) ∧ b.hand ++ received = more ++ t.hand
  written : b.written <+: t.written

theorem Accounts.add (accounts : b.Accounts cfg taken) (now : b.loop = .adding r) :
    Progress cfg b (b.add cfg r) taken [] := by
  have clean := accounts.clean (by simp [now])
  have held : b.hand = [r] := by simp [hand, now]
  cases converted : cfg.convert r with simp only [BatchWriter.add, converted]
  | entry t =>
    split
    · have pushed := accounts.push clean converted b.loop
      obtain ⟨flushed, empty, kept⟩ := pushed.loopFlush clean
      refine ⟨⟨[r], flushed, by simp [held, empty]⟩, ?_⟩
      exact ⟨[], by rw [append_nil, kept]⟩
    · exact ⟨⟨[r], accounts.push clean converted .select, by rw [held]; simp [hand, clean]⟩,
        prefix_rfl⟩
  | skip =>
    exact ⟨⟨[r], accounts.declined clean converted .select, by rw [held]; simp [hand, clean]⟩,
      prefix_rfl⟩
  | fail =>
    exact ⟨⟨[], by simpa using accounts.fail converted, by rw [held]; simp [hand]⟩, prefix_rfl⟩

theorem Accounts.drainAdd (accounts : b.Accounts cfg taken) (now : b.loop = .drainAdding r) :
    Progress cfg b (b.drainAdd cfg r) taken [] := by
  have clean := accounts.clean (by simp [now])
  have held : b.hand = [r] := by simp [hand, now]
  cases converted : cfg.convert r with simp only [BatchWriter.drainAdd, converted]
  | entry t =>
    exact ⟨⟨[r], accounts.push clean converted .draining, by rw [held]; simp [hand, clean]⟩,
      prefix_rfl⟩
  | skip =>
    exact ⟨⟨[r], accounts.declined clean converted .draining, by rw [held]; simp [hand, clean]⟩,
      prefix_rfl⟩
  | fail =>
    exact ⟨⟨[], by simpa using accounts.fail converted, by rw [held]; simp [hand]⟩, prefix_rfl⟩

theorem Accounts.still {t : BatchWriter τ} (accounts : t.Accounts cfg taken)
    (held : t.hand = b.hand) (written : t.written = b.written) : Progress cfg b t taken [] := by
  refine ⟨⟨[], by simpa using accounts, by simp [held]⟩, ?_⟩
  exact written ▸ prefix_rfl

theorem accounts_step {t : BatchWriter τ} {input rest : List Record} {shut cancelled : Bool}
    {a : BatchAction} (accounts : b.Accounts cfg taken)
    (moves : b.step cfg input shut cancelled a = some (t, rest)) :
    ∃ received, input = received ++ rest ∧ Progress cfg b t taken received := by
  cases a with simp only [step] at moves
  | take =>
    split at moves
    case h_3 => cases moves
    -- the drain takes a record in the same way
    all_goals
      rename_i r tail now
      cases moves
      have clean := accounts.clean (by simp [now])
      exact ⟨[r], rfl, ⟨[], by simpa using accounts.goto clean _, by simp [hand, now, clean]⟩,
        prefix_rfl⟩
  | add =>
    split at moves
    · cases moves
      exact ⟨[], rfl, accounts.add ‹_›⟩
    · cases moves
      exact ⟨[], rfl, accounts.drainAdd ‹_›⟩
    · cases moves
  | tick =>
    obtain ⟨ready, ⟨⟩⟩ := of_ite_some moves
    have clean := accounts.clean (by simp [ready.1])
    obtain ⟨flushed, empty, kept⟩ := accounts.loopFlush clean
    have held : b.hand = [] := by simp [hand, ready.1, clean]
    exact ⟨[], rfl, flushed.still (empty.trans held.symm) kept⟩
  | flushed i ok =>
    split at moves
    next batch found =>
      cases moves
      refine ⟨[], rfl, ⟨[], by simpa using accounts.landed found ok, ?_⟩, ?_⟩
      · simp [hand_landed accounts ok]
      · cases ok <;> simp [landed]
    · cases moves
  | observe =>
    obtain ⟨ready, ⟨⟩⟩ := of_ite_some moves
    have clean := accounts.clean (by simp [ready.1])
    have moved : { b with loop := .finishing, errCh := false }.Accounts cfg taken :=
      ⟨accounts.entries, accounts.converted, accounts.nonempty, by simp [clean]⟩
    exact ⟨[], rfl, moved.still (by simp [hand, ready.1, clean]) rfl⟩
  | cancel =>
    obtain ⟨ready, ⟨⟩⟩ := of_ite_some moves
    have clean := accounts.clean (by simp [ready.1])
    exact ⟨[], rfl, (accounts.goto clean .draining).still (by simp [hand, ready.1, clean]) rfl⟩
  | deadline =>
    obtain ⟨now, ⟨⟩⟩ := of_ite_some moves
    have clean := accounts.clean (by simp [now])
    exact ⟨[], rfl, (accounts.doFlush.goto (by simp [clean]) .finishing).still
      (by simp [hand, now, clean]) (by simp)⟩
  | closed =>
    obtain ⟨ready, ⟨⟩⟩ := of_ite_some moves
    have clean : b.failed = none := accounts.clean (by rcases ready.1 with now | now <;> simp [now])
    refine ⟨[], rfl, (accounts.doFlush.goto (by simp [clean]) .finishing).still ?_ (by simp)⟩
    rcases ready.1 with now | now <;> simp [hand, now, clean]
  | ret =>
    obtain ⟨ready, ⟨⟩⟩ := of_ite_some moves
    have moved : { b with loop := .returned }.Accounts cfg taken :=
      ⟨accounts.entries, accounts.converted, accounts.nonempty, fun r mem =>
        ⟨(accounts.failed r mem).1, .inr rfl⟩⟩
    exact ⟨[], rfl, moved.still (by simp [hand, ready.1]) rfl⟩

/-- Everything received is at the destination exactly when the sink holds nothing and no
flush failed. -/
theorem Accounts.delivered_iff
    (accounts : b.Accounts cfg taken) : b.Delivered cfg (taken ++ b.hand) ↔ b.Idle cfg := by
  have split : ((taken ++ b.hand).filterMap (entryOf cfg) : Multiset τ) = b.written +
      (b.lost + b.flights.flatten + b.batch + b.hand.filterMap (entryOf cfg)) := by
    rw [filterMap_append, ← Multiset.coe_add, accounts.entries]
    abel
  constructor
  · rintro ⟨converted, present⟩
    rw [split] at present
    have size := Multiset.card_le_card present
    simp only [Multiset.card_add, Multiset.coe_card] at size
    have unsent : b.flights.flatten = [] := eq_nil_of_length_eq_zero (by omega)
    have held : b.hand.filterMap (entryOf cfg) = [] := eq_nil_of_length_eq_zero (by omega)
    refine ⟨fun r mem => ?_, eq_nil_of_length_eq_zero (by omega), ?_,
      eq_nil_of_length_eq_zero (by omega)⟩
    · have noEntry := filterMap_eq_nil_iff.1 held r mem
      have noFailure := converted r (mem_append_right _ mem)
      cases outcome : cfg.convert r with
      | entry t => simp [entryOf, outcome] at noEntry
      | skip => rfl
      | fail => exact absurd outcome noFailure
    · rw [eq_nil_iff_forall_not_mem]
      intro batch mem
      exact accounts.nonempty batch mem (flatten_eq_nil_iff.1 unsent batch mem)
  · rintro ⟨skipped, noBatch, noFlights, noLoss⟩
    have held : b.hand.filterMap (entryOf cfg) = [] := by
      rw [filterMap_eq_nil_iff]
      intro r mem
      simp [entryOf, skipped r mem]
    refine ⟨fun r mem => ?_, ?_⟩
    · rcases mem_append.1 mem with old | new
      · exact accounts.converted r old
      · rw [skipped r new]
        nofun
    · rw [split, held, noBatch, noFlights, noLoss]
      simp

end BatchWriter

end Weibo.Sink
