import Mathlib.Data.List.Nodup
import Weibo.Lib.Transition

/-!
# The partition manager

`partitionManager` keeps one reader goroutine per desired partition. A reader that is no longer
wanted is cancelled but not awaited, and may still win the select of its delivery; one that starts
seeks the restored offset of its partition.
-/

namespace Weibo.Source.PartitionManager

open List Option Transition

inductive ReaderPhase where
  | fetching
  | holding (offset : Nat)
  | ended
  deriving DecidableEq

structure Reader where
  partition : Nat
  position : Nat
  cancelled : Bool := false
  phase : ReaderPhase := .fetching
  deriving DecidableEq

inductive ManagerPhase where
  | stopping (desired : List Nat)
  | starting (rest : List Nat)
  | watching
  | closing
  | returned
  deriving DecidableEq

/-- One call of `run`. -/
structure State where
  phase : ManagerPhase
  running : List Nat := []
  readers : List Reader := []
  cancelled : Bool := false
  fatal : Bool := false
  delivered : List (Nat × Nat) := []
  deriving DecidableEq

inductive Action where
  | discover (desired : List Nat)
  | stop (partition : Nat)
  | swept
  /-- `reconcile` comes to the next partition; without a restored offset, or when `SetOffset`
  fails, a reader begins where the configured start offset is. -/
  | start (begins : Nat) (sought : Bool)
  | reconciled
  | cancel
  | close
  | ret
  | fetch (reader offset : Nat)
  | skip (reader : Nat)
  | emit (reader : Nat)
  | give (reader : Nat)

def launch (seed : List Nat) : State := { phase := .stopping seed }

def startReader (restored : Nat → Option Nat) (s : State) (partition begins : Nat) (sought : Bool) :
    State :=
  let position := match restored partition with
    | some offset => if sought then offset else begins
    | none => begins
  { s with
    running := partition :: s.running
    readers := s.readers ++ [{ partition, position, cancelled := s.cancelled }] }

def setReader (s : State) (i : Nat) (r : Reader) : State := { s with readers := s.readers.set i r }

def step (restored : Nat → Option Nat) (s : State) : Action → Option State
  | .discover desired =>
    if s.phase = .watching then some { s with phase := .stopping desired } else none
  | .stop partition =>
    match s.phase with
    | .stopping desired =>
      if partition ∈ s.running ∧ partition ∉ desired then
        some { s with
          running := s.running.erase partition
          readers := s.readers.map fun r => if r.partition = partition then
            { r with cancelled := true } else r }
      else none
    | _ => none
  | .swept =>
    match s.phase with
    | .stopping desired =>
      if ∀ partition ∈ s.running, partition ∈ desired then
        some { s with phase := .starting desired } else none
    | _ => none
  | .start begins sought =>
    match s.phase with
    | .starting (partition :: rest) =>
      let s := if partition ∈ s.running then s else startReader restored s partition begins sought
      some { s with phase := .starting rest }
    | _ => none
  | .reconciled => if s.phase = .starting [] then some { s with phase := .watching } else none
  | .cancel =>
    some { s with
      cancelled := true
      readers := s.readers.map fun r => { r with cancelled := true } }
  | .close =>
    if s.phase = .watching ∧ (s.cancelled ∨ s.fatal) then
      some { s with
        phase := .closing, cancelled := true, running := []
        readers := s.readers.map fun r => { r with cancelled := true } }
    else none
  | .ret =>
    if s.phase = .closing ∧
      ∀ r ∈ s.readers, r.phase = .ended then some { s with phase := .returned } else none
  | .fetch i offset =>
    match s.readers[i]? with
    | some r => if r.phase = .fetching ∧ r.position ≤ offset then
        some (setReader s i { r with position := offset + 1, phase := .holding offset }) else none
    | none => none
  | .skip i =>
    match s.readers[i]? with
    | some r => match r.phase with
      | .holding _ => some (setReader s i { r with phase := .fetching })
      | _ => none
    | none => none
  | .emit i =>
    match s.readers[i]? with
    | some r => match r.phase with
      | .holding offset => some { setReader s i { r with phase := .fetching } with
          delivered := s.delivered ++ [(r.partition, offset)] }
      | _ => none
    | none => none
  | .give i =>
    match s.readers[i]? with
    | some r => if r.phase = .ended then none else
        some { setReader s i { r with phase := .ended } with fatal := s.fatal || !r.cancelled }
    | none => none

def offsets (s : State) (partition : Nat) : List Nat :=
  s.delivered.filterMap fun d => if d.1 = partition then some d.2 else none

/-- Live readers have partitions of their own, and each is read in the order of its offsets. -/
def ReadOnce (s : State) : Prop :=
  (∀ (i j : Nat) (r q : Reader), s.readers[i]? = some r → s.readers[j]? = some q →
    r.phase ≠ .ended → q.phase ≠ .ended →
    r.partition = q.partition → i = j) ∧
  ∀ partition, (offsets s partition).Pairwise (· < ·)

/-- Discovery never brings back a partition that was dropped. -/
def NoReturn (s : State) (a : Action) : Prop :=
  ∀ desired, a = .discover desired → ∀ partition ∈ desired,
    partition ∈ s.running ∨ ∀ r ∈ s.readers, r.partition ≠ partition

/-! ## Runs without a return -/

def Reader.ahead (r : Reader) : Nat :=
  match r.phase with
  | .holding offset => offset
  | _ => r.position

/-- The partitions that `reconcile` still wants. -/
def wanted (s : State) : List Nat :=
  match s.phase with
  | .stopping desired => desired
  | .starting rest => rest
  | _ => []

structure Single (s : State) : Prop where
  single : (s.readers.map Reader.partition).Nodup
  running : ∀ partition ∈ s.running, ∃ r ∈ s.readers, r.partition = partition
  fresh : ∀ partition ∈ wanted s, partition ∈ s.running ∨ ∀ r ∈ s.readers, r.partition ≠ partition
  held : ∀ r ∈ s.readers, ∀ offset, r.phase = .holding offset → offset < r.position
  behind : ∀ d ∈ s.delivered, ∃ r ∈ s.readers, r.partition = d.1 ∧ d.2 < r.ahead
  increasing : ∀ partition, (offsets s partition).Pairwise (· < ·)

variable {restored : Nat → Option Nat} {s t : State} {r q : Reader} {i : Nat} {a : Action}

structure Onward (before after : List Reader) : Prop where
  partitions : after.map Reader.partition = before.map Reader.partition
  ahead : ∀ r ∈ before, ∃ q ∈ after, q.partition = r.partition ∧ r.ahead ≤ q.ahead
  held : ∀ q ∈ after, ∀ offset, q.phase = .holding offset → offset < q.position

theorem Single.onward_self (single : Single s) : Onward s.readers s.readers :=
  ⟨rfl, fun r mem => ⟨r, mem, rfl, le_refl _⟩, single.held⟩

theorem Single.onward_cancel (single : Single s) (gone : Reader → Bool) : Onward s.readers
    (s.readers.map fun r => if gone r then { r with cancelled := true } else r) := by
  refine ⟨?_, fun r mem => ⟨_, mem_map_of_mem mem, ?_, ?_⟩, fun q mem => ?_⟩
  · rw [List.map_map]
    refine map_congr_left fun r _ => ?_
    simp only [Function.comp_apply]
    split <;> rfl
  · split <;> rfl
  · split <;> exact le_refl _
  · obtain ⟨r, inside, rfl⟩ := mem_map.1 mem
    split <;> exact single.held r inside

theorem Single.onward_set (single : Single s) (found : s.readers[i]? = some r)
    (same : q.partition = r.partition) (ahead : r.ahead ≤ q.ahead) (held : ∀ offset,
    q.phase = .holding offset → offset < q.position) : Onward s.readers (s.readers.set i q) := by
  obtain ⟨inside, rfl⟩ := List.getElem?_eq_some_iff.1 found
  refine ⟨?_, fun p mem => ?_, fun p mem => ?_⟩
  · rw [map_set, same]
    apply ext_getElem (by simp)
    intro j first second
    rw [getElem_set]
    split
    · next here => simp [here]
    · rfl
  · obtain ⟨j, other, rfl⟩ := getElem_of_mem mem
    by_cases here : i = j
    · subst here
      exact ⟨q, mem_set inside q, same, ahead⟩
    · refine ⟨_, mem_iff_getElem.2 ⟨j, by simpa using other, ?_⟩, rfl, le_refl _⟩
      rw [getElem_set_ne here]
  · rcases mem_or_eq_of_mem_set mem with old | rfl
    · exact single.held p old
    · exact held

theorem Single.move (single : Single s) (onward : Onward s.readers t.readers)
    (running : ∀ partition ∈ t.running, partition ∈ s.running) (fresh : ∀ partition ∈ wanted t,
    partition ∈ t.running ∨ ∀ r ∈ s.readers, r.partition ≠ partition)
    (delivered : t.delivered = s.delivered) : Single t := by
  have back {q : Reader} (mem : q ∈ t.readers) : ∃ r ∈ s.readers, r.partition = q.partition := by
    have inside : q.partition ∈ s.readers.map Reader.partition :=
      onward.partitions ▸ mem_map_of_mem mem
    exact mem_map.1 inside
  refine ⟨onward.partitions ▸ single.single, fun partition mem => ?_, fun partition mem => ?_,
    onward.held,
    fun d mem => ?_, fun partition => ?_⟩
  · obtain ⟨r, mem, same⟩ := single.running partition (running partition mem)
    obtain ⟨q, mem, alike, -⟩ := onward.ahead r mem
    exact ⟨q, mem, alike.trans same⟩
  · refine (fresh partition mem).imp_right fun new q mem => ?_
    obtain ⟨r, mem, same⟩ := back mem
    exact same ▸ new r mem
  · obtain ⟨r, mem, same, less⟩ := single.behind d (delivered ▸ mem)
    obtain ⟨q, mem, alike, ahead⟩ := onward.ahead r mem
    exact ⟨q, mem, alike.trans same, lt_of_lt_of_le less ahead⟩
  · have same : offsets t partition = offsets s partition := by rw [offsets, offsets, delivered]
    rw [same]
    exact single.increasing partition

theorem Single.startReader (single : Single s) {partition begins : Nat} {sought : Bool}
    (new : ∀ r ∈ s.readers, r.partition ≠ partition) {rest : List Nat}
    (fresh : ∀ p ∈ rest, p ∈ s.running ∨ ∀ r ∈ s.readers, r.partition ≠ p) :
    Single { startReader restored s partition begins sought with phase := .starting rest } := by
  have given :
    ∃ position, (PartitionManager.startReader restored s partition begins sought).readers =
      s.readers ++ [{ partition, position, cancelled := s.cancelled }] := ⟨_, rfl⟩
  obtain ⟨position, readers⟩ := given
  refine ⟨?_, fun p mem => ?_, fun p mem => ?_, fun q mem => ?_, fun d mem => ?_, single.increasing⟩
  · change (map _ (PartitionManager.startReader restored s partition begins sought).readers).Nodup
    rw [readers, map_append]
    refine single.single.append (nodup_singleton _) fun p old last => ?_
    obtain ⟨r, mem, rfl⟩ := mem_map.1 old
    exact new r mem (mem_singleton.1 last)
  · change ∃ r ∈ (PartitionManager.startReader restored s partition begins sought).readers, _
    rw [readers]
    rcases mem_cons.1 mem with rfl | old
    · exact ⟨_, mem_append_right _ mem_cons_self, rfl⟩
    · obtain ⟨r, mem, same⟩ := single.running p old
      exact ⟨r, mem_append_left _ mem, same⟩
  · change p ∈ partition :: s.running ∨
      ∀ r ∈ (PartitionManager.startReader restored s partition begins
      sought).readers, _
    rw [readers]
    by_cases same : p = partition
    · exact .inl (mem_cons.2 (.inl same))
    · refine (fresh p mem).imp (mem_cons_of_mem _) fun none => forall_mem_append.2 ⟨none, ?_⟩
      exact forall_mem_singleton.2 (Ne.symm same)
  · change q ∈ (PartitionManager.startReader restored s partition begins sought).readers at mem
    rw [readers] at mem
    rcases mem_append.1 mem with old | last
    · exact single.held q old
    · rw [mem_singleton.1 last]
      exact fun offset never => by cases never
  · obtain ⟨r, mem, rest⟩ := single.behind d mem
    refine ⟨r, ?_, rest⟩
    change r ∈ (PartitionManager.startReader restored s partition begins sought).readers
    rw [readers]
    exact mem_append_left _ mem

theorem Single.emit (single : Single s) {offset : Nat} (found : s.readers[i]? = some r)
    (holding : r.phase = .holding offset) :
    Single { setReader s i { r with phase := .fetching } with
      delivered := s.delivered ++ [(r.partition, offset)] } := by
  have mem := mem_of_getElem? found
  have here : r.ahead = offset := by simp [Reader.ahead, holding]
  have less := single.held r mem offset holding
  have onward : Onward s.readers (s.readers.set i { r with phase := .fetching }) :=
    single.onward_set found rfl (here ▸ le_of_lt less) fun _ never => by cases never
  have moved := single.move (t := setReader s i { r with phase := .fetching }) onward (fun _ => id)
    single.fresh rfl
  refine { moved with behind := fun d inside => ?_, increasing := fun partition => ?_ }
  · rcases mem_append.1 inside with old | last
    · exact moved.behind d old
    · rw [mem_singleton.1 last]
      obtain ⟨small, -⟩ := List.getElem?_eq_some_iff.1 found
      exact ⟨_, mem_set small _, rfl, less⟩
  · change (filterMap _ (s.delivered ++ [(r.partition, offset)])).Pairwise (· < ·)
    rw [filterMap_append, pairwise_append]
    refine ⟨single.increasing partition, ?_, fun x old y last => ?_⟩
    · by_cases own : r.partition = partition <;> simp [own]
    · obtain ⟨d, delivered, is⟩ := mem_filterMap.1 old
      obtain ⟨mine, same⟩ := ite_none_right_eq_some.1 is
      obtain ⟨e, one, mem'⟩ := mem_filterMap.1 last
      rw [mem_singleton.1 one] at mem'
      obtain ⟨own, equal⟩ := ite_none_right_eq_some.1 mem'
      cases same
      cases equal
      obtain ⟨q, reader, part, low⟩ := single.behind d delivered
      obtain rfl := inj_on_of_nodup_map single.single reader mem (part.trans (mine.trans own.symm))
      rwa [here] at low

theorem Single.step (single : Single s) (fine : NoReturn s a)
    (moves : PartitionManager.step restored s a = some t) : Single t := by
  cases a with simp only [PartitionManager.step] at moves
  | discover desired =>
    obtain ⟨-, rfl⟩ := of_ite_some moves
    exact single.move single.onward_self (fun _ => id) (fine desired rfl) rfl
  | stop partition =>
    split at moves
    · next desired now =>
      obtain ⟨ready, rfl⟩ := of_ite_some moves
      have wants : wanted s = desired := by simp [wanted, now]
      refine single.move ?_ (fun p mem => mem_of_mem_erase mem) (fun p mem => ?_) rfl
      · simpa using single.onward_cancel fun r => decide (r.partition = partition)
      · have inside : p ∈ desired := by simpa [wanted, now] using mem
        have differs : p ≠ partition := fun same => ready.2 (same ▸ inside)
        exact (single.fresh p (wants ▸ inside)).imp_left (mem_erase_of_ne differs).2
    · cases moves
  | swept =>
    split at moves
    · next desired now =>
      obtain ⟨-, rfl⟩ := of_ite_some moves
      have wants : wanted s = desired := by simp [wanted, now]
      exact single.move single.onward_self (fun _ => id)
        (fun p mem => single.fresh p (wants ▸ mem)) rfl
    · cases moves
  | start begins sought =>
    split at moves
    · next partition rest now =>
      cases moves
      have wants : wanted s = partition :: rest := by simp [wanted, now]
      have fresh (p : Nat) (mem : p ∈ rest) : p ∈ s.running ∨ ∀ r ∈ s.readers, r.partition ≠ p :=
        single.fresh p (wants ▸ mem_cons_of_mem _ mem)
      split
      · exact single.move single.onward_self (fun _ => id) fresh rfl
      · next absent =>
        have new := (single.fresh partition (wants ▸ mem_cons_self)).resolve_left absent
        exact single.startReader new fresh
    · cases moves
  | reconciled | ret =>
    obtain ⟨-, rfl⟩ := of_ite_some moves
    exact single.move single.onward_self (fun _ => id) (by simp [wanted]) rfl
  | cancel =>
    cases moves
    exact single.move (by simpa using single.onward_cancel fun _ => true)
      (fun _ => id) single.fresh rfl
  | close =>
    obtain ⟨-, rfl⟩ := of_ite_some moves
    exact single.move (by simpa using single.onward_cancel fun _ => true) (by simp)
      (by simp [wanted]) rfl
  | fetch i offset =>
    split at moves
    · next r found =>
      obtain ⟨ready, rfl⟩ := of_ite_some moves
      refine single.move (single.onward_set found rfl ?_ fun o is => ?_)
        (fun _ => id) single.fresh rfl
      · simpa [Reader.ahead, ready.1] using ready.2
      · obtain rfl := ReaderPhase.holding.inj is
        exact Nat.lt_succ_self _
    · cases moves
  | skip i =>
    split at moves
    · next r found =>
      split at moves
      · next offset holding =>
        cases moves
        have less := single.held r (mem_of_getElem? found) offset holding
        refine single.move (single.onward_set found rfl ?_ fun o never => by cases never)
          (fun _ => id)
          single.fresh rfl
        simpa [Reader.ahead, holding] using le_of_lt less
      · cases moves
    · cases moves
  | emit i =>
    split at moves
    · next r found =>
      split at moves
      · next offset holding =>
        cases moves
        exact single.emit found holding
      · cases moves
    · cases moves
  | give i =>
    split at moves
    · next r found =>
      obtain ⟨live, rfl⟩ := of_ite_none moves
      refine single.move (single.onward_set found rfl ?_ fun o never => by cases never)
        (fun _ => id)
        single.fresh rfl
      cases phase : r.phase with
      | fetching => simp [Reader.ahead, phase]
      | holding offset =>
        simpa [Reader.ahead, phase]
          using le_of_lt (single.held r (mem_of_getElem? found) offset phase)
      | ended => exact absurd phase live
    · cases moves

theorem Single.readOnce (single : Single s) : ReadOnce s := by
  refine ⟨fun i j r q here there _ _ same => ?_, single.increasing⟩
  obtain ⟨small, rfl⟩ := List.getElem?_eq_some_iff.1 here
  obtain ⟨less, rfl⟩ := List.getElem?_eq_some_iff.1 there
  have inside : i < (s.readers.map Reader.partition).length := by simpa using small
  have mem' : j < (s.readers.map Reader.partition).length := by simpa using less
  have equal : (s.readers.map Reader.partition)[i] = (s.readers.map Reader.partition)[j] := by
    simpa using same
  exact single.single.getElem_inj_iff.1 equal

/-- For all restored positions, every sequence of discovery answers that brings back no partition
and every schedule of the readers: no two readers of one partition are at work, and the offsets
delivered of each partition are strictly increasing. -/
theorem partitions_read_once (restored : Nat → Option Nat) (seed : List Nat) (s : State)
    (reach : Transition.Reach (step restored) NoReturn (launch seed) s) : ReadOnce s := by
  have start : Single (launch seed) := by constructor <;> simp [launch, offsets]
  exact (reach.invariant start fun s a t single fine moves => single.step fine moves).readOnce

instance (s : State) (a : Action) : Decidable (NoReturn s a) := by
  cases a with
  | discover desired =>
    exact decidable_of_iff (∀ partition ∈ desired, partition ∈ s.running ∨
      ∀ r ∈ s.readers, r.partition ≠ partition)
      ⟨fun all _ same => Action.discover.inj same ▸ all, fun all => all desired rfl⟩
  | _ => exact isTrue (by rintro _ ⟨⟩)

/-- A discovery answer drops the first of two partitions and adds a third. -/
theorem record_read_once : ∃ s, ReadOnce s ∧ s.delivered = [(0, 5), (1, 5), (2, 5), (1, 6)] := by
  obtain ⟨s, reach, held⟩ :=
    Transition.Reach.exists_of_guarded (step fun _ => some 5) NoReturn (launch [0, 1])
    [.swept, .start 0 true, .start 0 true, .reconciled, .fetch 0 5, .emit 0, .fetch 1 5, .emit 1,
      .discover [1, 2], .stop 0, .swept, .start 0 true, .start 0 true, .reconciled, .fetch 2 5,
        .emit 2,
      .fetch 1 6, .emit 1] (fun s => s.delivered = [(0, 5), (1, 5), (2, 5), (1, 6)]) (by decide)
  exact ⟨s, partitions_read_once _ _ _ reach, of_decide_eq_true held⟩

/-- A partition that comes back: its second reader begins at the restored offset while the first one
is at work, and the record there is delivered twice. -/
theorem partition_comes_back :
    ∃ s, Transition.Reach (step fun _ => some 5) Transition.Always (launch [0]) s ∧
      s.delivered = [(0, 5), (0, 5)] ∧
      s.readers.map (fun r => (r.partition, r.phase)) = [(0, .fetching), (0, .fetching)] ∧
        ¬ ReadOnce s := by
  obtain ⟨s, reach, held⟩ := Transition.Reach.exists_of_run (step fun _ => some 5) (launch [0])
    [.swept, .start 0 true, .reconciled, .fetch 0 5, .emit 0, .discover [], .stop 0, .swept,
      .reconciled,
      .discover [0], .swept, .start 0 true, .fetch 1 5, .emit 1]
    (fun s => s.delivered = [(0, 5), (0, 5)] ∧
      s.readers.map (fun r => (r.partition, r.phase)) = [(0, .fetching), (0, .fetching)])
        (by decide)
  obtain ⟨twice, readers⟩ := of_decide_eq_true held
  refine ⟨s, reach, twice, readers, fun once => ?_⟩
  have increasing := once.2 0
  simp [offsets, twice] at increasing

end Weibo.Source.PartitionManager
