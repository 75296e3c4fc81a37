import Weibo.Lib.Projection
import Weibo.Operator.PerKey
import Weibo.Pipeline.KeyedProgress

/-!
# The keyed stage with any number of workers

The router sends the records of a key to one worker and the markers to all, and the workers work key
by key. So what leaves the stage for a key does not depend on the number of workers, the other keys
or the schedule.
-/

namespace Weibo.Pipeline

open List

open Chain (Node Act Flow)
open Record (concerns)
open Transition (Reach Always Stuck Halts)
open KeyedStage (image_move parallel_inv routed)
open Workers (clones)

/-- If there is a `Reduce`, no record that reaches it carries a window: none of the input does,
and the functions of the other operators emit none. -/
def NonWindowed (ops : List Operator) (records : List Record) : Prop :=
  ops.any Operator.reduces = true →
    (∀ r ∈ records, r.isMarker = false → r.Windowless) ∧
      ∀ op ∈ ops, op.EmitsOnly Record.Windowless

def KeyByOperator.keyed (keyBy : KeyByOperator) (r : Record) : Record :=
  if r.isMarker then r else r.withKey (keyBy.keySelector r)

section Stage

variable [TimeText] [JoinText]

namespace Goroutine

omit [TimeText] [JoinText] in
def Within (keys : Bytes → Prop) (reduces : Bool) : Goroutine → Prop
  | .copy => True
  | .operator op => op.Within keys reduces

omit [TimeText] [JoinText] in
def Alike (key : Bytes) : Goroutine → Goroutine → Prop
  | .copy, .copy => True
  | .operator op, .operator twin => Operator.Alike key op twin
  | _, _ => False

variable {key : Bytes} {keys : Bytes → Prop} {reduces : Bool} {g twin after later : Goroutine}
  {choice order : Nat} {r : Record} {sends sent : List Record}

omit [TimeText] [JoinText] in
theorem Alike.symm (alike : Alike key g twin) : Alike key twin g := by
  cases g <;> cases twin <;> simp only [Alike] at alike ⊢
  exact Operator.Alike.symm alike

theorem Within.react (within : g.Within keys reduces) (fits : Operator.Fits keys reduces r)
    (reacts : goroutines.react g choice r = .send sends after) :
    after.Within keys reduces ∧ ∀ b ∈ sends, Operator.Fits keys reduces b := by
  cases g with
  | copy =>
    cases reacts
    exact ⟨trivial, fun b mem => (mem_singleton.1 mem) ▸ fits⟩
  | operator op =>
    obtain ⟨next, goes, rfl⟩ := Reaction.of_map_eq_send reacts
    exact Operator.Within.process within fits goes

theorem Alike.react_other (alike : Alike key g twin) (within : g.Within keys reduces)
    (fits : Operator.Fits keys reduces r) (hidden : concerns key r = false)
    (reacts : goroutines.react g choice r = .send sends after) :
    sends.filter (concerns key) = [] ∧ Alike key after twin := by
  cases g with
  | copy =>
    cases reacts
    exact ⟨by simp [hidden], alike⟩
  | operator op =>
    obtain ⟨next, goes, rfl⟩ := Reaction.of_map_eq_send reacts
    cases twin with
    | copy => exact alike.elim
    | operator twin => exact Operator.Alike.process_other alike within fits hidden goes

theorem Alike.react (alike : Alike key g twin) (within : g.Within keys reduces)
    (mem' : twin.Within keys reduces) (fits : Operator.Fits keys reduces r)
    (shown : concerns key r = true) (reacts : goroutines.react g choice r = .send sends after)
    (answers : goroutines.react twin order r = .send sent later) :
    sends.filter (concerns key) = sent.filter (concerns key) ∧ Alike key after later := by
  cases g with
  | copy =>
    cases twin with
    | copy =>
      cases reacts
      cases answers
      exact ⟨rfl, trivial⟩
    | operator twin => exact alike.elim
  | operator op =>
    cases twin with
    | copy => exact alike.elim
    | operator twin =>
      obtain ⟨next, goes, rfl⟩ := Reaction.of_map_eq_send reacts
      obtain ⟨next', goes', rfl⟩ := Reaction.of_map_eq_send answers
      exact Operator.Alike.process alike within mem' fits shown goes goes'

theorem Within.flush (within : g.Within keys reduces)
    (flush : goroutines.flush g choice = .send sends after) : sends = [] := by
  cases g with
  | copy =>
    cases flush
    rfl
  | operator op =>
    obtain ⟨next, goes, rfl⟩ := Reaction.of_map_eq_send flush
    cases op with
    | window op | intervalJoin op => exact within.perKey.elim
    | reduce op | keyedProcess op =>
      cases goes
      rfl

end Goroutine

def keyProjection (key : Bytes) (keys : Bytes → Prop) (reduces : Bool) :
    Chain.Projection goroutines (concerns key) where
  safe := Goroutine.Within keys reduces
  fits := Operator.Fits keys reduces
  alike := Goroutine.Alike key
  symm _ _ alike := alike.symm
  keeps _ _ _ _ _ within fits reacts := within.react fits reacts
  hidden _ _ _ _ _ _ within fits alike hidden reacts := alike.react_other within fits hidden reacts
  shown _ _ _ _ _ _ _ _ _ within mem' fits alike shown reacts answers :=
    alike.react within mem' fits shown reacts answers
  silent _ _ _ _ within flush := within.flush flush

omit [TimeText] [JoinText] in
theorem within_clone {ops : List Operator} {op : Operator} (perKey : op.PerKey) (mem : op ∈ ops)
    (emits : ops.any Operator.reduces = true → op.EmitsOnly Record.Windowless)
    (keys : Bytes → Prop) : op.clone.Within keys (ops.any Operator.reduces) := by
  cases op with
  | window op | intervalJoin op => exact perKey.elim
  | reduce op =>
    exact ⟨perKey, fun _ => any_eq_true.2 ⟨_, mem, rfl⟩, trivial, fun _ same => by cases same⟩
  | keyedProcess op =>
    refine ⟨perKey,
      by simp [Operator.clone, Operator.reduces], ⟨?_, fun onTimer configured => ?_⟩, ?_⟩
    · exact fun context input effect returned r inside calm =>
        (emits calm).1 context input effect returned r inside
    · exact fun context input effect returned r inside calm =>
        (emits calm).2 onTimer configured context input effect returned r inside
    · intro process same key inside
      cases same
      cases inside

omit [TimeText] [JoinText] in
theorem steady_clone {op : Operator} (perKey : op.PerKey) : op.clone.Steady := by
  cases op with
  | window op | intervalJoin op => exact perKey.elim
  | reduce op => exact perKey
  | keyedProcess op => exact perKey.1

section Clones

variable {ops : List Operator} (perKey : ∀ op ∈ ops, op.PerKey)
  (emits : ops.any Operator.reduces = true → ∀ op ∈ ops, op.EmitsOnly Record.Windowless)

include perKey emits in
omit [TimeText] [JoinText] in
theorem within_clones (keys : Bytes → Prop) :
    ∀ g ∈ workerChain (ops.map Operator.clone), g.Within keys (ops.any Operator.reduces) := by
  intro g mem
  cases g with
  | copy => trivial
  | operator op =>
    obtain ⟨origin, listed, rfl⟩ := mem_map.1 (mem_workerChain mem)
    exact within_clone (perKey origin listed) listed (fun some => emits some origin listed) keys

include perKey in
omit [TimeText] [JoinText] in
theorem alike_clones (key : Bytes) : ∀ g ∈ workerChain (ops.map Operator.clone), g.Alike key g := by
  intro g mem
  cases g with
  | copy => trivial
  | operator op =>
    obtain ⟨origin, listed, rfl⟩ := mem_map.1 (mem_workerChain mem)
    have works := perKey origin listed
    cases origin with
    | window op | intervalJoin op => exact works.elim
    | reduce op => exact ⟨rfl, rfl⟩
    | keyedProcess op => exact .refl key _

end Clones

/-! ## What is routed -/

omit [TimeText] [JoinText] in
theorem fits_routed {n : Nat} [NeZero n] {keyBy : KeyByOperator} {reduces : Bool} {records :
    List Record} (calm : reduces = true → ∀ r ∈ records, r.isMarker = false → r.Windowless)
    (w : Fin n) : ∀ r ∈ routed keyBy w records, Operator.Fits (routeKey n · = w) reduces r := by
  intro r mem data
  obtain ⟨origin, listed, owed⟩ := mem_flatMap.1 mem
  cases kind : origin.isMarker with
  | true =>
    have same : r = origin := by simpa [KeyedStage.route, Router.owed, kind] using owed
    rw [same, kind] at data
    cases data
  | false =>
    obtain ⟨target, same⟩ : w = routeKey n (keyBy.keySelector origin) ∧
        r = origin.withKey (keyBy.keySelector origin) := by
      simpa [KeyedStage.route, Router.owed, kind] using owed
    rw [same, target]
    exact ⟨rfl, fun some => calm some origin listed kind⟩

omit [TimeText] [JoinText] in
theorem routed_concerns {n : Nat} [NeZero n] (keyBy : KeyByOperator) (key : Bytes)
    (records : List Record) :
    (routed keyBy (routeKey n key) records).filter (concerns key) =
      (records.map keyBy.keyed).filter (concerns key) := by
  induction records with
  | nil => rfl
  | cons r rest ih =>
    rw [KeyedStage.routed_cons, filter_append, ih, map_cons, filter_cons]
    cases kind : r.isMarker with
    | true =>
      simp [KeyedStage.route, Router.owed, KeyByOperator.keyed, kind, concerns]
    | false =>
      have data : (r.withKey (keyBy.keySelector r)).isMarker = false := kind
      by_cases same : keyBy.keySelector r = key
      · subst same
        simp [KeyedStage.route, Router.owed, KeyByOperator.keyed, kind, concerns, Record.withKey]
      · have other : concerns key (r.withKey (keyBy.keySelector r)) = false := by
          rw [concerns, data]
          simp [Record.withKey, same]
        by_cases target : routeKey n key = routeKey n (keyBy.keySelector r) <;>
          simp [KeyedStage.route, Router.owed, KeyByOperator.keyed, kind, target, other]

/-! ## What leaves the stage -/

section Outputs

variable {ops : List Operator} (perKey : ∀ op ∈ ops, op.PerKey) {keyBy : KeyByOperator} {n : Nat}
  [NeZero n] {s : KeyedStage n}

include perKey in
omit [TimeText] [JoinText] [NeZero n] in
theorem steady_clones : ∀ w, ∀ op ∈ (clones n ops).chain w, op.Steady := by
  intro w op mem
  obtain ⟨origin, listed, rfl⟩ := mem_map.1 mem
  exact steady_clone (perKey origin listed)

include perKey in
theorem workers_read
    (reach : Reach (KeyedStage.step keyBy) Always (KeyedStage.start (clones n ops).chain) s)
    (stuck : Stuck (KeyedStage.move keyBy) s) (w : Fin n) :
    Chain.Reads goroutines (workerChain (ops.map Operator.clone)) (routed keyBy w s.fed)
      (Tagged.view Record.isMarker w s.merge.out) := by
  have inv := parallel_inv keyBy (clones n ops) (steady_clones perKey) reach
  obtain ⟨-, -, workers⟩ := inv.delivered ((image_move keyBy).stuck_iff.2 stuck)
  obtain ⟨rests, flow⟩ := workers w
  rw [← KeyedStage.routed_layout]
  exact flow.reads rests

include perKey in
theorem output_concerns (calm : NonWindowed ops s.fed)
    (reach : Reach (KeyedStage.step keyBy) Always (KeyedStage.start (clones n ops).chain) s)
    (stuck : Stuck (KeyedStage.move keyBy) s) (key : Bytes) :
    (s.merge.out.map Prod.snd).filter (concerns key) =
      (Tagged.view Record.isMarker (routeKey n key) s.merge.out).filter (concerns key) := by
  refine Tagged.filter_snd_eq _ fun ⟨v, r⟩ mem shown => ?_
  cases kind : r.isMarker with
  | true => exact .inl rfl
  | false =>
    refine .inr ?_
    have sent := (keyProjection key (routeKey n · = v) (ops.any Operator.reduces)).reads_keep
      (within_clones perKey (fun some => (calm some).2) _)
      (fits_routed (fun some => (calm some).1) v) (workers_read perKey reach stuck v)
    have seen : r ∈ Tagged.view Record.isMarker v s.merge.out :=
      mem_map.2 ⟨(v, r), mem_filter.2 ⟨mem, by simp⟩, rfl⟩
    have same : r.key = key := by simpa [concerns, kind] using shown
    exact (sent r seen kind).1.symm.trans (by rw [same])

end Outputs

/-- The results of a keyed stage do not depend on its parallelism. For `Reduce` without windows and
for `KeyedProcess` with functions that never fail, return no markers and emit only records with
their own key: when nothing can move, the records of every key that left the stage are those that a
single worker sends, in the same order and between the same markers. -/
theorem keyedStage_parallelism_free (keyBy : KeyByOperator) (ops : List Operator)
    (perKey : ∀ op ∈ ops, op.PerKey) (n : Nat) [NeZero n] (s : KeyedStage n) (t : KeyedStage 1)
    (reach : Reach (KeyedStage.step keyBy) Always (KeyedStage.start (clones n ops).chain) s)
    (single : Reach (KeyedStage.step keyBy) Always (KeyedStage.start (clones 1 ops).chain) t)
    (same : s.fed = t.fed) (calm : NonWindowed ops s.fed) :
    (Halts (KeyedStage.move keyBy) s ∧ Halts (KeyedStage.move keyBy) t) ∧
    (Stuck (KeyedStage.move keyBy) s → s.Delivered) ∧
    (Stuck (KeyedStage.move keyBy) s → Stuck (KeyedStage.move keyBy) t → ∀ key,
      (s.merge.out.map Prod.snd).filter (concerns key) =
        (t.merge.out.map Prod.snd).filter (concerns key)) := by
  have inv := parallel_inv keyBy (clones n ops) (steady_clones perKey) reach
  have inv' := parallel_inv keyBy (clones 1 ops) (steady_clones perKey) single
  have image := image_move (n := n) keyBy
  refine ⟨⟨image.halts inv.halts, (image_move keyBy).halts inv'.halts⟩,
    fun stuck => KeyedStage.delivered_of_parallel (inv.delivered (image.stuck_iff.2 stuck)).1,
    fun stuck rests key => ?_⟩
  have quiet : NonWindowed ops t.fed := same ▸ calm
  rw [output_concerns perKey calm reach stuck key, output_concerns perKey quiet single rests key]
  have within := within_clones perKey (fun some => (calm some).2) fun _ => True
  have anywhere : ∀ {m : Nat} [NeZero m] (w : Fin m), ∀ r ∈ routed keyBy w s.fed,
      Operator.Fits (fun _ => True) (ops.any Operator.reduces) r := fun w r mem data =>
    ⟨trivial, (fits_routed (fun some => (calm some).1) w r mem data).2⟩
  have read := workers_read perKey single rests (routeKey 1 key)
  rw [← same] at read
  refine (keyProjection key (fun _ => True) (ops.any Operator.reduces)).reads_agree within within
    ?_ (anywhere _) (anywhere _) ?_ (workers_read perKey reach stuck (routeKey n key)) read
  · exact forall₂_same.2 (alike_clones perKey key)
  · rw [routed_concerns, routed_concerns]

end Stage

/-! ## Two keys -/

section Examples

attribute [local instance] TimeText.blank JoinText.blank

/-- A record with the key `a` and one with the key `b`, which two workers share. -/
def twoKeys : List Record := [{ key := [98], offset := 1 }, { key := [97], offset := 2 }]

def tally : Operator := .reduce { fn := fun accum _ => some (some (0 :: accum.getD [])) }

theorem fed_move {n : Nat} [NeZero n] {s t : KeyedStage n} {m : KeyedMove n}
    (moves : s.move byKey m = some t) : t.fed = s.fed := by
  cases m <;> simp only [KeyedStage.move] at moves
  all_goals repeat' split at moves
  any_goals cases moves
  any_goals rfl
  all_goals
    obtain ⟨_, -, rfl⟩ := Option.map_eq_some_iff.1 moves
    first | rfl | (split <;> rfl)

theorem exists_rest {n : Nat} [NeZero n] {first s : KeyedStage n}
    (reach : Reach (KeyedStage.step byKey) Always first s)
    (halts : Halts (KeyedStage.move byKey) s) : ∃ t, Reach (KeyedStage.step byKey) Always first t ∧
    Stuck (KeyedStage.move byKey) t ∧ t.fed = s.fed := by
  induction halts with
  | intro s _ ih =>
    by_cases stuck : Stuck (KeyedStage.move byKey) s
    · exact ⟨s, reach, stuck, rfl⟩
    · obtain ⟨a, enabled⟩ := not_forall.1 stuck
      obtain ⟨next, moves⟩ := Option.ne_none_iff_exists'.1 enabled
      obtain ⟨t, later, rests, fed⟩ := ih next ⟨a, moves⟩ (.tail (.move a) reach trivial moves)
      exact ⟨t, later, rests, fed.trans (fed_move moves)⟩

/-- Counting two keys with two workers and with one ends, with the same results for each key. -/
theorem keyedStage_parallelism_free_two :
    ∃ (s : KeyedStage 2) (t : KeyedStage 1), s.fed = twoKeys ∧ t.fed = twoKeys ∧
    Stuck (KeyedStage.move byKey) s ∧ Stuck (KeyedStage.move byKey) t ∧ s.Delivered ∧ ∀ key,
      (s.merge.out.map Prod.snd).filter (concerns key) =
        (t.merge.out.map Prod.snd).filter (concerns key) := by
  have perKey : ∀ op ∈ [tally], op.PerKey := fun op mem => by
    rw [mem_singleton.1 mem]
    exact fun _ _ => rfl
  have calm : NonWindowed [tally] twoKeys := by
    refine fun _ => ⟨fun r mem _ => ?_, fun op mem => ?_⟩
    · simp only [twoKeys, mem_cons, not_mem_nil, or_false] at mem
      rcases mem with rfl | rfl <;> exact ⟨rfl, rfl⟩
    · rw [mem_singleton.1 mem]
      trivial
  have fed {n : Nat} [NeZero n] :
    Reach (KeyedStage.step byKey) Always (KeyedStage.start (clones n [tally]).chain)
      { KeyedStage.start (clones n [tally]).chain with input := twoKeys, fed := twoKeys } :=
    .tail (.feed { key := [97], offset := 2 })
      (.tail (.feed { key := [98], offset := 1 }) .refl trivial rfl) trivial rfl
  have halts := (keyedStage_parallelism_free byKey [tally] perKey 2 _ _ fed fed rfl calm).1
  obtain ⟨s, reach, stuck, same⟩ := exists_rest fed halts.1
  obtain ⟨t, single, rests, same'⟩ := exists_rest fed halts.2
  obtain ⟨-, delivered, equal⟩ :=
    keyedStage_parallelism_free byKey [tally] perKey 2 s t reach single
    (same.trans same'.symm) (same ▸ calm)
  exact ⟨s, t, same, same', stuck, rests, delivered stuck, equal stuck rests⟩

def refuse (context : KeyedContext) (r : Record) : Option KeyedEffect :=
  if context.key = [98] then none else some ⟨context.values, [], [r.withKey context.key]⟩

def refuses : Operator := .keyedProcess { fn := refuse }

def relays {n : Nat} (w : Fin n) (position : Nat) : List (KeyedMove n) :=
  [Act.take 0, .push, .settle].map (.worker w position)

def failing {n : Nat} (w : Fin n) : List (KeyedMove n) :=
  relays w 0 ++ [.worker w 1 (.take 0), .worker w 1 .settle, .worker w 2 (.drain 0),
    .worker w 2 .settle, .worker w 3 (.drain 0), .worker w 3 .settle, .worker w 4 (.drain 0),
    .worker w 4 .settle, .finish w]

def entering {n : Nat} : List (KeyedAction n) :=
  twoKeys.map .feed ++ ([.receive, .dispatch, .dispatch, .receive, .dispatch, .dispatch].map .move)

def partedSchedule : List (KeyedAction 2) :=
  entering ++ ((relays 0 0 ++ relays 0 1 ++ relays 0 2 ++ relays 0 3 ++ relays 0 4 ++
    ([.take 0, .forward 0, .receive, .send] : List (MergeAction 2)).map KeyedMove.merge ++
    failing 1).map .move)

def joinedSchedule : List (KeyedAction 1) := entering ++ (failing 0).map .move

theorem stuck_of_cancelled {n : Nat} [NeZero n] {keyBy : KeyByOperator} {s : KeyedStage n}
    (cancelled : s.cancelled = true) : Stuck (KeyedStage.move keyBy) s := by
  intro a
  cases a <;> simp [KeyedStage.move, cancelled]

/-- A function that fails for one key stops the others as well, and how far they came depends on
the parallelism: with two workers the result of a key leaves the stage that a single worker
never computes. -/
theorem failure_depends_on_parallelism :
    KeyedProcessOperator.OwnKey refuse ∧
    ∃ (s : KeyedStage 2) (t : KeyedStage 1),
      Reach (KeyedStage.step byKey) Always (KeyedStage.start (clones 2 [refuses]).chain) s ∧
      Reach (KeyedStage.step byKey) Always (KeyedStage.start (clones 1 [refuses]).chain) t ∧
      Stuck (KeyedStage.move byKey) s ∧ Stuck (KeyedStage.move byKey) t ∧
      s.fed = twoKeys ∧ t.fed = twoKeys ∧
      (s.merge.out.map Prod.snd).filter (concerns [97]) = [{ key := [97], offset := 2 }] ∧
      (t.merge.out.map Prod.snd).filter (concerns [97]) = [] := by
  refine ⟨fun context r effect returned b mem => ?_, ?_⟩
  · obtain ⟨-, rfl⟩ := Transition.of_ite_none returned
    rw [mem_singleton.1 mem]
    rfl
  obtain ⟨s, reach, holds⟩ := Reach.exists_of_run (KeyedStage.step byKey)
    (KeyedStage.start (clones 2 [refuses]).chain) partedSchedule
    (fun s => s.cancelled && decide (s.fed = twoKeys) &&
      decide (s.merge.out.map Prod.snd = [{ key := [97], offset := 2 }])) (by decide +kernel)
  obtain ⟨t, single, ends⟩ := Reach.exists_of_run (KeyedStage.step byKey)
    (KeyedStage.start (clones 1 [refuses]).chain) joinedSchedule
    (fun s => s.cancelled && decide (s.fed = twoKeys) && decide (s.merge.out.map Prod.snd = []))
    (by decide +kernel)
  simp only [Bool.and_eq_true, decide_eq_true_eq] at holds ends
  refine ⟨s, t, reach, single, stuck_of_cancelled holds.1.1, stuck_of_cancelled ends.1.1,
    holds.1.2, ends.1.2, ?_, ?_⟩
  · rw [holds.2]
    rfl
  · rw [ends.2]
    rfl

end Examples

end Weibo.Pipeline
