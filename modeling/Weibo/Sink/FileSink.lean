import Weibo.Lib.Transition
import Weibo.Types.Record

/-!
# The file sink

`FileSink.Write` flushes its `bufio.Writer` only when its input closes or its context is cancelled.
Bytes also reach the file when the buffer overflows, so a line can be cut at any byte.
-/

namespace Weibo.Sink

open List Option

/-- The buffer size of `bufio.NewWriter`. -/
def bufSize : Nat := 4096

structure Buffered where
  file : Bytes := []
  buf : Bytes := []
  deriving DecidableEq

namespace Buffered

/-- `bufio.Writer.Write`: a full buffer is written out, and what exceeds a whole buffer goes
to the file directly. -/
def write (b : Buffered) (bytes : Bytes) : Buffered :=
  if b.buf.length + bytes.length ≤ bufSize then { b with buf := b.buf ++ bytes }
  else if b.buf = [] then { b with file := b.file ++ bytes }
  else
    let room := bufSize - b.buf.length
    let rest := bytes.drop room
    let full := b.file ++ b.buf ++ bytes.take room
    if bufSize < rest.length then ⟨full ++ rest, []⟩ else ⟨full, rest⟩

def writeByte (b : Buffered) (byte : UInt8) : Buffered :=
  if bufSize ≤ b.buf.length then ⟨b.file ++ b.buf, [byte]⟩ else { b with buf := b.buf ++ [byte] }

def flush (b : Buffered) : Buffered := ⟨b.file ++ b.buf, []⟩

theorem write_bytes (b : Buffered) (bytes : Bytes) :
    (b.write bytes).file ++ (b.write bytes).buf = b.file ++ b.buf ++ bytes := by
  simp only [write]
  split
  · simp
  · split
    next empty =>
      simp [empty]
    · split <;> simp [append_assoc]

theorem file_write (b : Buffered) (bytes : Bytes) : b.file <+: (b.write bytes).file := by
  simp only [write]
  split
  · exact prefix_rfl
  · split
    · exact prefix_append _ _
    · split <;> simp [append_assoc]

theorem writeByte_bytes (b : Buffered) (byte : UInt8) :
    (b.writeByte byte).file ++ (b.writeByte byte).buf = b.file ++ b.buf ++ [byte] := by
  simp only [writeByte]
  split <;> simp

theorem file_writeByte (b : Buffered) (byte : UInt8) : b.file <+: (b.writeByte byte).file := by
  simp only [writeByte]
  split
  · exact prefix_append _ _
  · exact prefix_rfl

end Buffered

/-- The configuration of a `FileSink`: its serializer, `none` where it returns an error. -/
structure FileSinkConfig where
  serialize : Record → Option Bytes

inductive FileLoop
  | opening
  | select
  | writing (r : Record)
  | returned
  deriving DecidableEq

structure FileSink where
  loop : FileLoop := .opening
  failed : Option Record := none
  out : Buffered := {}

inductive FileAction
  | opened (ok : Bool)
  | take
  | write
  | writeFails (k : Nat)
  | finish
  | finishFails (k : Nat)
  deriving DecidableEq

namespace FileSink

variable {cfg : FileSinkConfig}

def line (cfg : FileSinkConfig) (r : Record) : Option Bytes := (cfg.serialize r).map (· ++ [10])

def hand (f : FileSink) : List Record :=
  match f.loop with
  | .writing r => [r]
  | _ => f.failed.toList

def cut (file pending : Bytes) (k : Nat) : FileSink :=
  { loop := .returned, out := ⟨file ++ pending.take k, pending.drop k⟩ }

/-- One move, on the buffered input `input`; the result is the new state and input. -/
def step (cfg : FileSinkConfig) (f : FileSink) (input : List Record) (shut cancelled : Bool) :
    FileAction → Option (FileSink × List Record)
  | .opened ok =>
    if f.loop = .opening then some ({ f with loop := if ok then .select else .returned }, input)
    else none
  | .take =>
    match f.loop, input with
    | .select, r :: rest => some ({ f with loop := .writing r }, rest)
    | _, _ => none
  | .write =>
    match f.loop with
    | .writing r =>
      match cfg.serialize r with
      | some bytes =>
        some ({ f with loop := .select, out := (f.out.write bytes).writeByte 10 }, input)
      | none => some ({ f with loop := .returned, failed := some r }, input)
    | _ => none
  | .writeFails k =>
    match f.loop with
    | .writing r =>
      match line cfg r with
      | some bytes =>
        let pending := f.out.buf ++ bytes
        -- the underlying file is written only when the line overflows the buffer
        if bufSize < pending.length ∧ k < pending.length then
          some (cut f.out.file pending k, input)
        else none
      | none => none
    | _ => none
  | .finish =>
    if f.loop = .select ∧ ((input = [] ∧ shut) ∨ cancelled) then
      some ({ f with loop := .returned, out := f.out.flush }, input)
    else none
  | .finishFails k =>
    if f.loop = .select ∧ ((input = [] ∧ shut) ∨ cancelled) ∧ k < f.out.buf.length then
      some (cut f.out.file f.out.buf k, input)
    else none

/-! ## Conservation of bytes -/

def linesOf (cfg : FileSinkConfig) : List Record → Option Bytes
  | [] => some []
  | r :: rest => (line cfg r).bind fun bytes => (linesOf cfg rest).map (bytes ++ ·)

/-- The serialized records `taken` are accounted for: each byte is in the file or buffered. -/
structure Accounts (cfg : FileSinkConfig) (f : FileSink) (taken : List Record) : Prop where
  bytes : linesOf cfg taken = some (f.out.file ++ f.out.buf)
  failed : ∀ r ∈ f.failed, cfg.serialize r = none ∧ f.loop = .returned

def Idle (f : FileSink) : Prop := f.hand = [] ∧ f.out.buf = []

def Delivered (cfg : FileSinkConfig) (f : FileSink) (received : List Record) : Prop :=
  ∃ bytes, linesOf cfg received = some bytes ∧ bytes <+: f.out.file

theorem linesOf_append (first second : List Record) : linesOf cfg (first ++ second) =
      (linesOf cfg first).bind fun a => (linesOf cfg second).map (a ++ ·) := by
  induction first with
  | nil => simp [linesOf]
  | cons r rest ih =>
    simp only [cons_append, linesOf, ih]
    cases line cfg r <;> cases linesOf cfg rest <;> cases linesOf cfg second <;> simp

variable {f : FileSink} {taken : List Record}

theorem Accounts.delivered_iff
    (accounts : f.Accounts cfg taken) : f.Delivered cfg (taken ++ f.hand) ↔ f.Idle := by
  constructor
  · rintro ⟨bytes, lines, present⟩
    rw [linesOf_append, accounts.bytes, bind_some, map_eq_some_iff] at lines
    obtain ⟨held, handLines, rfl⟩ := lines
    have size := present.length_le
    simp only [length_append] at size
    refine ⟨?_, eq_nil_of_length_eq_zero (by omega)⟩
    cases hand : f.hand with
    | nil => rfl
    | cons r rest =>
      rw [hand] at handLines
      simp only [linesOf, line, bind_eq_some_iff, map_eq_some_iff] at handLines
      obtain ⟨_, ⟨text, _, rfl⟩, later, _, rfl⟩ := handLines
      simp only [length_append, length_singleton] at size
      omega
  · rintro ⟨empty, drained⟩
    refine ⟨f.out.file, ?_, prefix_rfl⟩
    rw [empty, append_nil, accounts.bytes, drained, append_nil]

theorem Accounts.clean (accounts : f.Accounts cfg taken)
    (running : f.loop ≠ .returned) : f.failed = none := by
  cases left : f.failed with
  | none => rfl
  | some r => exact absurd (accounts.failed r left).2 running

theorem Accounts.write {t : FileSink} {r : Record} {bytes : Bytes} (accounts : f.Accounts cfg taken)
    (text : line cfg r = some bytes) (clean : t.failed = none)
    (whole : t.out.file ++ t.out.buf = f.out.file ++ f.out.buf ++ bytes) : t.Accounts cfg
    (taken ++ [r]) := by
  refine ⟨?_, by simp [clean]⟩
  rw [linesOf_append, accounts.bytes, whole]
  simp [linesOf, text]

structure Progress (cfg : FileSinkConfig) (f t : FileSink) (taken received : List Record) :
    Prop where
  accounts : ∃ more, t.Accounts cfg (taken ++ more) ∧ f.hand ++ received = more ++ t.hand
  file : f.out.file <+: t.out.file

theorem accounts_step {t : FileSink} {input rest : List Record} {shut cancelled : Bool}
    {a : FileAction} (accounts : f.Accounts cfg taken)
    (moves : f.step cfg input shut cancelled a = some (t, rest)) :
    ∃ received, input = received ++ rest ∧ Progress cfg f t taken received := by
  cases a with simp only [step] at moves
  | opened ok =>
    obtain ⟨now, ⟨⟩⟩ := Transition.of_ite_some moves
    have clean := accounts.clean (by simp [now])
    refine ⟨[], rfl, ⟨[], ⟨by simpa using accounts.bytes, by simp [clean]⟩, ?_⟩, prefix_rfl⟩
    cases ok <;> simp [hand, now, clean]
  | take =>
    split at moves
    next r tail now =>
      cases moves
      have clean := accounts.clean (by simp [now])
      exact ⟨[r], rfl, ⟨[], ⟨by simpa using accounts.bytes, by simp [clean]⟩,
        by simp [hand, now, clean]⟩, prefix_rfl⟩
    · cases moves
  | write =>
    split at moves
    next r now =>
      have clean := accounts.clean (by simp [now])
      split at moves
      next bytes text =>
        cases moves
        have full : line cfg r = some (bytes ++ [10]) := by simp [line, text]
        have added := accounts.write full
          (t := { f with loop := .select, out := (f.out.write bytes).writeByte 10 }) clean
          (by rw [Buffered.writeByte_bytes, Buffered.write_bytes, append_assoc])
        refine ⟨[], rfl, ⟨[r], added, by simp [hand, now, clean]⟩, ?_⟩
        exact (f.out.file_write bytes).trans (Buffered.file_writeByte _ _)
      next refused =>
        cases moves
        refine ⟨[], rfl, ⟨[], ⟨by simpa using accounts.bytes, fun x mem => ?_⟩,
          by simp [hand, now]⟩, prefix_rfl⟩
        cases mem
        exact ⟨refused, rfl⟩
    · cases moves
  | writeFails k =>
    split at moves
    next r now =>
      split at moves
      next bytes text =>
        split at moves
        · cases moves
          have added := accounts.write (t := cut f.out.file (f.out.buf ++ bytes) k) text rfl
            (by simp [cut, append_assoc])
          exact ⟨[], rfl, ⟨[r], added, by simp [hand, now, cut]⟩, prefix_append _ _⟩
        · cases moves
      · cases moves
    · cases moves
  | finish =>
    obtain ⟨ready, ⟨⟩⟩ := Transition.of_ite_some moves
    have clean := accounts.clean (by simp [ready.1])
    refine ⟨[], rfl, ⟨[], ⟨?_, by simp [clean]⟩, by simp [hand, ready.1, clean]⟩,
      prefix_append _ _⟩
    simpa [Buffered.flush] using accounts.bytes
  | finishFails k =>
    obtain ⟨ready, ⟨⟩⟩ := Transition.of_ite_some moves
    have clean := accounts.clean (by simp [ready.1])
    refine ⟨[], rfl, ⟨[], ⟨?_, by simp [cut]⟩, by simp [hand, ready.1, clean, cut]⟩,
      prefix_append _ _⟩
    simpa [cut, append_assoc] using accounts.bytes

end FileSink

end Weibo.Sink
