import Weibo.Workflow.Secrets

/-!
# Compiling a transactional Kafka sink

The controller starts a job with `WEIBO_JOB_ID` in its environment. The compiler resolves the
references of the credentials only: the transactional id of the compiled sink is the text in the
document, whatever the job.
-/

namespace Weibo.Workflow

open Filepath (Text)

structure Job where
  id : Text
  /-- The references of the job's secrets to the secret store. -/
  secrets : List (Text × Text)

def jobIDName : Text := "WEIBO_JOB_ID".toList

/-- `launchEnv`: the submitted secrets go over the job's id, the stored ones behind both; `none` if
the store does not resolve a reference. -/
def launchEnv (submitted resolveSecret : Text → Option Text) (job : Job) :
    Option (Text → Option Text) :=
  job.secrets.foldlM (fun env secret =>
    if (env secret.1).isSome then some env
    else (resolveSecret secret.2).map fun value => Function.update env secret.1 (some value))
    fun name => (submitted name).or (if name = jobIDName then some job.id else none)

structure SASLSpec where
  mechanism : Text
  username : Text
  password : Text

structure TxnKafkaSinkSpec where
  brokers : List Text
  topic : Text
  transactionalID : Text
  markerTopic : Text := []
  serialize : Text := []
  sasl : Option SASLSpec := none
  tls : Bool := false

/-- A workflow with a transactional sink; of its sources the credentials of those that have some. -/
structure TxnWorkflow where
  source : Option SASLSpec := none
  sources : List (Option SASLSpec) := []
  sink : TxnKafkaSinkSpec

inductive CompileError
  | secrets (e : ResolveError)
  | brokers
  | topic
  | transactionalID
  | serializer (format : Text)
  | unresolvedUsername
  | unresolvedPassword
  | mechanism (name : Text)

/-- The names the compiler knows: of SASL mechanisms and of serializers, where the empty one is
none. -/
structure Registry where
  Mechanism : Type
  Serializer : Type
  mechanism : Text → Option Mechanism
  serializer : Text → Option (Option Serializer)

/-- What `NewTxnKafkaSink` is given. -/
structure TxnKafkaOptions (reg : Registry) where
  brokers : List Text
  topic : Text
  transactionalID : Text
  markerTopic : Option Text
  serialize : Option reg.Serializer
  sasl : Option (reg.Mechanism × Text × Text)
  tls : Bool

section Compile

variable (resolve : Text → Option Text)

def resolveSASL (s : SASLSpec) : Except ResolveError SASLSpec := do
  let username ← resolveOne resolve "username".toList s.username
  let password ← resolveOne resolve "password".toList s.password
  .ok { s with username, password }

def resolveSecrets (wf : TxnWorkflow) : Except ResolveError TxnWorkflow := do
  let source ← wf.source.mapM (resolveSASL resolve)
  let sources ← wf.sources.mapM fun sasl => sasl.mapM (resolveSASL resolve)
  let sasl ← wf.sink.sasl.mapM (resolveSASL resolve)
  .ok { source, sources, sink := { wf.sink with sasl } }

variable {reg : Registry}

def compileSASL (s : SASLSpec) : Except CompileError (reg.Mechanism × Text × Text) :=
  if opening <:+: s.username then .error .unresolvedUsername
  else if opening <:+: s.password then .error .unresolvedPassword
  else
    match reg.mechanism s.mechanism with
    | some mechanism => .ok (mechanism, s.username, s.password)
    | none => .error (.mechanism s.mechanism)

def compileTxnKafkaSink (t : TxnKafkaSinkSpec) : Except CompileError (TxnKafkaOptions reg) :=
  if t.brokers = [] then .error .brokers
  else if t.topic = [] then .error .topic
  else if t.transactionalID = [] then .error .transactionalID
  else
    match reg.serializer t.serialize with
    | none => .error (.serializer t.serialize)
    | some serialize => (t.sasl.mapM compileSASL).map fun sasl =>
      { brokers := t.brokers, topic := t.topic, transactionalID := t.transactionalID,
        markerTopic := if t.markerTopic = [] then none else some t.markerTopic
        serialize, sasl, tls := t.tls }

/-- The steps of `CompileWorkflow` on the way to the sink. -/
def compileSink (wf : TxnWorkflow) : Except CompileError (TxnKafkaOptions reg) :=
  match resolveSecrets resolve wf with
  | .error e => .error (.secrets e)
  | .ok resolved => compileTxnKafkaSink resolved.sink

end Compile

variable {reg : Registry} {wf : TxnWorkflow}

theorem transactionalID_of_compile {t : TxnKafkaSinkSpec} {options : TxnKafkaOptions reg}
    (compiles : compileTxnKafkaSink t = .ok options) :
    options.transactionalID = t.transactionalID := by
  simp only [compileTxnKafkaSink] at compiles
  split at compiles
  · cases compiles
  split at compiles
  · cases compiles
  split at compiles
  · cases compiles
  split at compiles
  · cases compiles
  generalize t.sasl.mapM compileSASL = sasl at compiles
  cases sasl with
  | error e => cases compiles
  | ok sasl =>
    cases compiles
    rfl

variable {resolve : Text → Option Text}

theorem transactionalID_of_resolve {resolved : TxnWorkflow}
    (resolves : resolveSecrets resolve wf = .ok resolved) :
    resolved.sink.transactionalID = wf.sink.transactionalID := by
  simp only [resolveSecrets, bind, Except.bind] at resolves
  split at resolves
  · cases resolves
  split at resolves
  · cases resolves
  split at resolves
  · cases resolves
  · cases resolves
    rfl

theorem transactionalID_eq {options : TxnKafkaOptions reg}
    (compiles : compileSink resolve wf = .ok options) :
    options.transactionalID = wf.sink.transactionalID := by
  simp only [compileSink] at compiles
  split at compiles
  · cases compiles
  · next resolves =>
      exact (transactionalID_of_compile compiles).trans (transactionalID_of_resolve resolves)

/-- The transactional ids of two jobs of one document are equal, and have no unexpanded reference
exactly if the document has none. -/
theorem same_transactionalID {env env' : Text → Option Text}
    {options options' : TxnKafkaOptions reg}
    (first : compileSink env wf = .ok options) (second : compileSink env' wf = .ok options') :
    options.transactionalID = options'.transactionalID ∧
      (¬opening <:+: options.transactionalID ↔ ¬opening <:+: wf.sink.transactionalID) := by
  rw [transactionalID_eq first, transactionalID_eq second]
  exact ⟨rfl, Iff.rfl⟩

def emptyRegistry : Registry := ⟨Unit, Unit, fun _ => none, fun _ => some none⟩

/-- The documented way to pin the transactional id. -/
def pinned : TxnKafkaSinkSpec :=
  { brokers := [['b']], topic := ['t'], transactionalID := opening ++ jobIDName ++ ['\x7d'] }

def pinnedOptions : TxnKafkaOptions emptyRegistry :=
  ⟨[['b']], ['t'], pinned.transactionalID, none, none, none, false⟩

theorem opening_pinned : opening <:+: pinned.transactionalID := ⟨[], jobIDName ++ ['\x7d'], rfl⟩

/-- The reference reaches the broker unexpanded. -/
theorem pinned_as_written : pinnedOptions.transactionalID = opening ++ jobIDName ++ ['\x7d'] ∧
    opening <:+: pinnedOptions.transactionalID :=
  ⟨rfl, by_contra fun absent =>
    (same_transactionalID
      (show compileSink (fun _ => none) { sink := pinned } = .ok pinnedOptions from rfl)
      (show compileSink some { sink := pinned } = .ok pinnedOptions from rfl)).2.1 absent
        opening_pinned⟩

/-- Two jobs with different ids get the same transactional id, with the reference in it. -/
theorem jobs_share_transactionalID :
    ∃ env env', launchEnv (fun _ => none) (fun _ => none) ⟨['a'], []⟩ = some env ∧
    launchEnv (fun _ => none) (fun _ => none) ⟨['b'], []⟩ = some env' ∧
      env jobIDName ≠ env' jobIDName ∧
    compileSink env { sink := pinned } = .ok pinnedOptions ∧
    compileSink env' { sink := pinned } = .ok pinnedOptions ∧
      opening <:+: pinnedOptions.transactionalID :=
  ⟨_, _, rfl, rfl, by decide, rfl, rfl, opening_pinned⟩

end Weibo.Workflow
