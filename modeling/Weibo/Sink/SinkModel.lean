import Weibo.Sink.BatchWriter
import Weibo.Sink.FileSink

/-!
# Plain sinks

A plain sink receives records from a channel and hands them to a destination at its own pace.
`SinkModel` carries an account of the records received and its laws; the batching sinks and the file
sink are its instances.
-/

namespace Weibo.Sink

open List

/-- The `Write` goroutine of a plain sink. -/
structure SinkModel where
  State : Type
  Action : Type
  start : State
  /-- One move on the buffered input, whether it is closed, and whether the context is
  cancelled. -/
  step : State → List Record → Bool → Bool → Action → Option (State × List Record)
  returned : State → Bool
  Delivered : State → List Record → Prop
  Idle : State → Prop
  Accounts : State → List Record → Prop
  accounts_start : Accounts start []
  accounts_step : ∀ {s t input rest shut cancelled a received}, Accounts s received →
    step s input shut cancelled a = some (t, rest) →
    ∃ more, input = more ++ rest ∧ Accounts t (received ++ more)
  delivered_step : ∀ {s t input rest shut cancelled a received records}, Accounts s received →
    step s input shut cancelled a = some (t, rest) → Delivered s records → Delivered t records
  delivered_iff : ∀ {s received}, Accounts s received → (Delivered s received ↔ Idle s)

def BatchWriter.model {τ : Type} (cfg : BatchConfig τ) : SinkModel where
  State := BatchWriter τ
  Action := BatchAction
  start := {}
  step := step cfg
  returned b := b.loop = .returned
  Delivered := Delivered cfg
  Idle := Idle cfg
  Accounts b received := ∃ taken, received = taken ++ b.hand ∧ b.Accounts cfg taken
  accounts_start := ⟨[], rfl, by simp, by simp, by simp, by simp⟩
  accounts_step := by
    rintro s t input rest shut cancelled a _ ⟨taken, rfl, accounts⟩ moves
    obtain ⟨received, rfl, ⟨⟨more, after, same⟩, -⟩⟩ := BatchWriter.accounts_step accounts moves
    refine ⟨received, rfl, taken ++ more, ?_, after⟩
    rw [append_assoc, same, append_assoc]
  delivered_step := by
    rintro s t input rest shut cancelled a _ records ⟨taken, rfl, accounts⟩ moves ⟨converted, there⟩
    obtain ⟨received, rfl, progress⟩ := BatchWriter.accounts_step accounts moves
    exact ⟨converted, there.trans (Multiset.coe_le.2 progress.written.sublist.subperm)⟩
  delivered_iff := by
    rintro s _ ⟨taken, rfl, accounts⟩
    exact accounts.delivered_iff

def FileSink.model (cfg : FileSinkConfig) : SinkModel where
  State := FileSink
  Action := FileAction
  start := {}
  step := step cfg
  returned f := f.loop = .returned
  Delivered := Delivered cfg
  Idle := Idle
  Accounts f received := ∃ taken, received = taken ++ f.hand ∧ f.Accounts cfg taken
  accounts_start := ⟨[], rfl, by simp [linesOf], by simp⟩
  accounts_step := by
    rintro s t input rest shut cancelled a _ ⟨taken, rfl, accounts⟩ moves
    obtain ⟨received, rfl, ⟨⟨more, after, same⟩, -⟩⟩ := FileSink.accounts_step accounts moves
    refine ⟨received, rfl, taken ++ more, ?_, after⟩
    rw [append_assoc, same, append_assoc]
  delivered_step := by
    rintro s t input rest shut cancelled a _ records ⟨taken, rfl, accounts⟩ moves
      ⟨bytes, lines, there⟩
    obtain ⟨received, rfl, progress⟩ := FileSink.accounts_step accounts moves
    exact ⟨bytes, lines, there.trans progress.file⟩
  delivered_iff := by
    rintro s _ ⟨taken, rfl, accounts⟩
    exact accounts.delivered_iff

/-- The plain sinks: those on `batchWriter`, with their entry type, and `FileSink`. -/
inductive PlainSink (τ : Type)
  | batch (cfg : BatchConfig τ)
  | file (cfg : FileSinkConfig)

def PlainSink.model {τ : Type} : PlainSink τ → SinkModel
  | .batch cfg => BatchWriter.model cfg
  | .file cfg => FileSink.model cfg

end Weibo.Sink
