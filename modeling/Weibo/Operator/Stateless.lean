import Weibo.Lib.Reaction
import Weibo.Types.Record

/-!
# The stateless operators

`Map`, `Filter`, `FlatMap` and `Process` turn one data record into some records. A
`StatelessStage` runs a chain of them as direct calls on every data record and passes markers
on.
-/

namespace Weibo

open Option List

inductive ProcFailurePolicy
  | drop
  | dlq
  | fail
  deriving DecidableEq

inductive StatelessOperator
  | map (fn : Record → Record)
  | filter (fn : Record → Bool)
  | flatMap (fn : Record → List Record)
  | process (fn : Record → Except Bytes Record) (policy : ProcFailurePolicy)
      (queue : Option (Record → Bool))

namespace StatelessOperator

/-- `handleFailure`: whether the failure of a function on a record is dealt with. -/
def handleFailure (policy : ProcFailurePolicy) (queue : Option (Record → Bool)) (r : Record)
    (err : Bytes) : Bool :=
  match policy, queue with
  | .drop, _ => true
  | .dlq, none => false
  | .dlq, some write => write (r.withHeader "_error" err)
  | .fail, _ => false

/-- `ProcessOne`; `none` when the operator fails. -/
def processOne : StatelessOperator → Record → Option (List Record)
  | .map fn, r => some [fn r]
  | .filter fn, r => some (if fn r then [r] else [])
  | .flatMap fn, r => some (fn r)
  | .process fn policy queue, r =>
    match fn r with
    | .ok result => some [result]
    | .error err => if handleFailure policy queue r err then some [] else none

def processEach (op : StatelessOperator) : List Record → Option (List Record)
  | [] => some []
  | r :: rest => do
    let next ← op.processOne r
    let later ← processEach op rest
    some (next ++ later)

def processAll : List StatelessOperator → List Record → Option (List Record)
  | [], records => some records
  | op :: ops, records => do
    let results ← op.processEach records
    processAll ops results

/-- One round of the loop of `runWorker`. -/
def runWorker (ops : List StatelessOperator) (r : Record) :
    Reaction (List StatelessOperator) Record :=
  if r.isMarker then .send [r] ops
  else
    match processAll ops [r] with
    | some results => .send results ops
    | none => .fail

def Plain (op : StatelessOperator) : Prop :=
  ∀ r results, r.isMarker = false → op.processOne r = some results →
    ∀ b ∈ results, b.isMarker = false

theorem processEach_data {op : StatelessOperator} (plain : op.Plain) {records results : List Record}
    (data : ∀ r ∈ records, r.isMarker = false) (calls : op.processEach records = some results) :
    ∀ b ∈ results, b.isMarker = false := by
  induction records generalizing results with
  | nil =>
    cases calls
    simp
  | cons r rest ih =>
    obtain ⟨next, here, calls⟩ := bind_eq_some_iff.1 calls
    obtain ⟨later, there, calls⟩ := bind_eq_some_iff.1 calls
    cases calls
    intro b mem
    rcases mem_append.1 mem with first | second
    · exact plain r next (data r mem_cons_self) here b first
    · exact ih (fun r mem => data r (.tail _ mem)) there b second

theorem processAll_data {ops : List StatelessOperator} (plain : ∀ op ∈ ops, op.Plain)
    {records results : List Record} (data : ∀ r ∈ records, r.isMarker = false)
    (calls : processAll ops records = some results) : ∀ b ∈ results, b.isMarker = false := by
  induction ops generalizing records with
  | nil => exact some.inj calls ▸ data
  | cons op ops ih =>
    obtain ⟨next, here, calls⟩ := bind_eq_some_iff.1 calls
    exact ih (fun op mem => plain op (.tail _ mem))
      (processEach_data (plain op mem_cons_self) data here) calls

end StatelessOperator

end Weibo
