import Mathlib.Algebra.Group.Int.Defs
import Mathlib.Algebra.Group.Nat.Defs
import Mathlib.Data.List.Basic

/-!
# Records

`types.Record` is the one element that flows through every channel of a pipeline:
a data record, a watermark or a checkpoint barrier. Event times are counted in
nanoseconds from the Unix epoch, so Go's zero time is the constant `Time.zero`.
-/

namespace Weibo

open List

abbrev Bytes := List UInt8

/-- `time.Time` as nanoseconds from the Unix epoch. -/
abbrev Time := Int

/-- `time.Duration` in nanoseconds. -/
abbrev Duration := Int

/-- `time.Time{}`, the first instant of year 1. -/
def Time.zero : Time := -62135596800000000000

def Time.isZero (t : Time) : Bool := decide (t = Time.zero)

/-- `Time.UnixNano`: 64 bits, so times outside the years 1678 to 2262 wrap around. -/
def Time.unixNano (t : Time) : Int := Int.bmod t (2 ^ 64)

def int64 (n : Int) : Int := Int.bmod n (2 ^ 64)

theorem int64_of_bounds {n : Int} (low : -2 ^ 63 ≤ n) (high : n < 2 ^ 63) : int64 n = n :=
  Int.bmod_eq_of_le (by omega) (by omega)

theorem Time.zero_lt_unixNano (t : Time) : Time.zero < t.unixNano := by
  have bound : -(2 ^ 64 / 2 : Int) ≤ Int.bmod t (2 ^ 64) := Int.le_bmod (by decide)
  exact Int.lt_of_lt_of_le (by decide) bound

inductive BarrierKind
  | periodic
  | final
  | shutdown
  deriving DecidableEq

/-- A checkpoint id `cp-<runNonce>-<n>`, with its suffix. -/
structure CheckpointID where
  runNonce : Nat
  number : Nat
  kind : BarrierKind := .periodic
  deriving DecidableEq

def CheckpointID.render (id : CheckpointID) : String :=
  "cp-" ++ toString id.runNonce ++ "-" ++ toString id.number ++
    match id.kind with
    | .periodic => ""
    | .final => "-final"
    | .shutdown => "-shutdown"

structure Record where
  key : Bytes := []
  value : Bytes := []
  timestamp : Time := Time.zero
  offset : Int := 0
  partition : Int := 0
  source : String := ""
  headers : List (String × Bytes) := []
  isWatermark : Bool := false
  isBarrier : Bool := false
  checkpointID : Option CheckpointID := none
  deriving DecidableEq

namespace Record

def newWatermark (ts : Time) : Record := { timestamp := ts, isWatermark := true }

def newBarrier (id : CheckpointID) : Record := { checkpointID := some id, isBarrier := true }

/-- `IsBarrier || IsWatermark`: the records every stage broadcasts and aligns. -/
def isMarker (r : Record) : Bool := r.isBarrier || r.isWatermark

def barrierID (r : Record) : Option CheckpointID :=
  if r.isWatermark then none else if r.isBarrier then r.checkpointID else none

def isCheckpoint (r : Record) : Bool := r.barrierID.isSome

def data (stream : List Record) : List Record := stream.filter fun r => !r.isMarker

def withKey (r : Record) (key : Bytes) : Record := { r with key := key }

/-- `r.Headers[name]`. -/
def header (r : Record) (name : String) : Option Bytes := r.headers.lookup name

/-- `WithHeader`: a copy with one header set. -/
def withHeader (r : Record) (name : String) (value : Bytes) : Record :=
  { r with headers := (name, value) :: r.headers.filter fun h => h.1 != name }

/-- `decodeRecord (encodeRecord r)`: the JSON form keeps the data of a record and its time as
Unix nanoseconds, and drops the marker fields. -/
def stored (r : Record) : Record where
  key := r.key
  value := r.value
  timestamp := r.timestamp.unixNano
  offset := r.offset
  partition := r.partition
  source := r.source
  headers := r.headers

@[simp] theorem isMarker_stored (r : Record) : r.stored.isMarker = false := rfl

@[simp] theorem isMarker_newWatermark (ts : Time) : (newWatermark ts).isMarker = true := rfl

@[simp] theorem isMarker_newBarrier (id : CheckpointID) : (newBarrier id).isMarker = true := rfl

@[simp] theorem barrierID_newBarrier (id : CheckpointID) :
    (newBarrier id).barrierID = some id := rfl

variable {r : Record}

theorem barrierID_of_data (isData : r.isMarker = false) : r.barrierID = none := by
  simp only [isMarker, Bool.or_eq_false_iff] at isData
  simp [barrierID, isData.1, isData.2]

theorem isMarker_of_barrierID {id : CheckpointID}
    (barrier : r.barrierID = some id) : r.isMarker = true := by
  cases marker : r.isMarker with
  | true => rfl
  | false =>
    cases (barrierID_of_data marker).symm.trans barrier

@[simp] theorem data_nil : data [] = [] := rfl

@[simp] theorem data_append (first second : List Record) :
    data (first ++ second) = data first ++ data second := filter_append ..

theorem data_cons (r : Record) (rest : List Record) : data (r :: rest) = data [r] ++ data rest := by
  rw [← data_append]
  rfl

theorem data_singleton_marker (marker : r.isMarker = true) : data [r] = [] := by
  simp [data, marker]

theorem data_singleton (isData : r.isMarker = false) : data [r] = [r] := by
  simp [data, isData]

@[simp] theorem isMarker_withKey (r : Record) (key : Bytes) :
    (r.withKey key).isMarker = r.isMarker := rfl

theorem header_withHeader (r : Record) (name other : String) (value : Bytes) :
    (r.withHeader name value).header other = if other = name then some value else
    r.header other := by
  by_cases same : other = name
  · simp [header, withHeader, same]
  · have kept : ∀ headers : List (String × Bytes),
        (headers.filter fun h => h.1 != name).lookup other = headers.lookup other := by
      intro headers
      induction headers with
      | nil => rfl
      | cons h rest ih =>
        obtain ⟨first, text⟩ := h
        by_cases gone : first = name
        · have differs : (other == first) = false := by simpa [gone] using same
          rw [filter_cons_of_neg (by simp [gone]), ih, lookup_cons, differs]
        · rw [filter_cons_of_pos (by simp [gone]), lookup_cons, lookup_cons, ih]
    have differs : (other == name) = false := by simpa using same
    simp [header, withHeader, lookup_cons, differs, same, kept]

@[simp] theorem isMarker_withHeader (r : Record) (name : String) (value : Bytes) :
    (r.withHeader name value).isMarker = r.isMarker := rfl

end Record

end Weibo
