import Mathlib.Algebra.Order.Ring.Int
import Weibo.Workflow.Record

/-!
# Comparisons and filters

`Compare` decides equality of numbers exactly if both are `int64`, and by `float64` value otherwise;
it orders them by `float64` value alone. First `asNumber` makes a `json.Number` of what a record or
a configuration holds. A filter also drops a record when there is nothing to compare with.
-/

namespace Weibo.Workflow

open Option List

open Filepath (Text)

variable {ν κ φ : Type}

/-- `CompareOp`, the supported ones. -/
inductive CompareOp
  | equals
  | notEquals
  | greaterThan
  | greaterThanOrEqual
  | lessThan
  | lessThanOrEqual
  | contains
  | exists
  | notExists
  deriving DecidableEq

namespace CompareOp

def name : CompareOp → String
  | equals => "equals"
  | notEquals => "not_equals"
  | greaterThan => "greater_than"
  | greaterThanOrEqual => "greater_than_or_equal"
  | lessThan => "less_than"
  | lessThanOrEqual => "less_than_or_equal"
  | contains => "contains"
  | «exists» => "exists"
  | notExists => "not_exists"

def all : List CompareOp :=
  [equals, notEquals, greaterThan, greaterThanOrEqual, lessThan, lessThanOrEqual, contains,
    «exists», notExists]

/-- The operator of a name; `Valid` asks for one. -/
def ofName (name : String) : Option CompareOp := all.find? fun op => op.name = name

def needsValue (op : CompareOp) : Bool := op ≠ «exists» ∧ op ≠ notExists

end CompareOp

/-- What the comparisons read of a number and print of a value; `κ` are the `json.Number`s. -/
structure Numerals (ν κ φ : Type) where
  asNumber : ν → Option κ
  /-- `json.Number.Int64`. -/
  int64 : κ → Option Int
  /-- `json.Number.Float64`. -/
  float64 : κ → Option φ
  literal : ν → Text
  sprint : Value ν → Text

section Compare

variable [LinearOrder φ] (lib : Numerals ν κ φ)

def asFloat (value : ν) : Option φ := (lib.asNumber value).bind lib.float64

def numbersEqual (a b : κ) : Bool :=
  match lib.int64 a, lib.int64 b with
  | some x, some y => x = y
  | _, _ =>
    match lib.float64 a, lib.float64 b with
    | some x, some y => x = y
    | _, _ => false

def valuesEqual : Value ν → Value ν → Bool
  | .number a, .number b =>
    match lib.asNumber a, lib.asNumber b with
    | some x, some y => numbersEqual lib x y
    | _, _ => false
  | .bool a, .bool b => a = b
  | .string a, .string b => a = b
  | _, _ => false

def sign {α : Type} [LT α] [DecidableLT α] (a b : α) : Int :=
  if a < b then -1 else if b < a then 1 else 0

def orderedCmp (accept : Int → Bool) : Value ν → Value ν → Bool
  | .number a, .number b =>
    match asFloat lib a, asFloat lib b with
    | some x, some y => accept (sign x y)
    | _, _ => false
  | .string a, .string b => accept (sign a b)
  | _, _ => false

def looseString : Value ν → Text
  | .string text => text
  | .number n => lib.literal n
  | .null => []
  | value => lib.sprint value

def containsValue (target : Value ν) : Value ν → Bool
  | .string text => looseString lib target <:+: text
  | .array items => items.any fun item => valuesEqual lib item target
  | _ => false

/-- `Compare`; the error is the unsupported operator. -/
def compareValues (op : String) (field : Option (Value ν)) (target : Value ν) :
    Except String Bool :=
  match CompareOp.ofName op, field with
  | some .exists, field => .ok field.isSome
  | some .notExists, field => .ok field.isNone
  | none, _ => .error op
  | some _, none => .ok false
  | some .equals, some value => .ok (valuesEqual lib value target)
  | some .notEquals, some value => .ok (!valuesEqual lib value target)
  | some .greaterThan, some value => .ok (orderedCmp lib (fun c => 0 < c) value target)
  | some .greaterThanOrEqual, some value => .ok (orderedCmp lib (fun c => 0 ≤ c) value target)
  | some .lessThan, some value => .ok (orderedCmp lib (fun c => c < 0) value target)
  | some .lessThanOrEqual, some value => .ok (orderedCmp lib (fun c => c ≤ 0) value target)
  | some .contains, some value => .ok (containsValue lib target value)

end Compare

/-! ## Integer literals -/

/-- A number that denotes an integer, written with digits alone or with a fraction or an exponent.
-/
structure Literal where
  value : Int
  plain : Bool
  deriving DecidableEq

/-- The nearest number with a 53-bit significand, ties to the even one. -/
def nearest (n : Nat) : Nat :=
  if n < 2 ^ 53 then n
  else
    let unit := 2 ^ (n.log2 - 52)
    let low := n / unit
    (if unit < 2 * (n % unit) ∨ (unit = 2 * (n % unit) ∧ low % 2 = 1) then low + 1 else low) * unit

/-- The `float64` nearest to an integer. -/
def rounded (n : Int) : Int := n.sign * nearest n.natAbs

/-- Where `float64` ends. -/
@[irreducible]
def float64Limit : Nat := (2 ^ 256) ^ 4

/-- The dynamic types of numbers: those of records, and those that YAML and JSON configurations
give. -/
inductive Number
  | json (literal : Literal)
  | int (n : Int)
  | uint64 (n : Nat)
  | float64 (x : Int)
  deriving DecidableEq

namespace Number

/-- `asNumber`, which has no case for `uint64`. `FormatFloat` prints an exponent from 1e+06 on. -/
def asNumber : Number → Option Literal
  | json literal => some literal
  | int n => some ⟨n, true⟩
  | uint64 _ => none
  | float64 x => some ⟨x, decide (x.natAbs < 10 ^ 6)⟩

def fromYAML (literal : Literal) : Number :=
  if literal.plain ∧ -2 ^ 63 ≤ literal.value ∧ literal.value < 2 ^ 63 then int literal.value
  else if literal.plain ∧ 0 ≤ literal.value ∧ literal.value < 2 ^ 64 then uint64 literal.value.toNat
  else float64 (rounded literal.value)

def fromJSON (literal : Literal) : Number := float64 (rounded literal.value)

end Number

/-- Numbers that denote integers; `Float64` fails out of its range. -/
def integers (sprint : Value Number → Text) : Numerals Number Literal Int where
  asNumber := Number.asNumber
  int64 n := if n.plain ∧ -2 ^ 63 ≤ n.value ∧ n.value < 2 ^ 63 then some n.value else none
  float64 n := if nearest n.value.natAbs < float64Limit then some (rounded n.value) else none
  literal
    | .json n => (toString n.value).toList
    | value => sprint (.number value)
  sprint := sprint

section Laws

variable [LinearOrder φ] (lib : Numerals ν κ φ)

def Holds (op : CompareOp) (a b : ν) : Prop :=
  compareValues lib op.name (some (.number a)) (.number b) = .ok true

structure Ordered (a b c : ν) : Prop where
  comparable : Holds lib .lessThan a b ∨ Holds lib .equals a b ∨ Holds lib .greaterThan a b
  less : ¬ (Holds lib .lessThan a b ∧ Holds lib .equals a b)
  greater : ¬ (Holds lib .greaterThan a b ∧ Holds lib .equals a b)
  both : ¬ (Holds lib .lessThan a b ∧ Holds lib .greaterThan a b)
  greaterOrEqual :
    Holds lib .greaterThanOrEqual a b ↔ Holds lib .greaterThan a b ∨ Holds lib .equals a b
  lessOrEqual : Holds lib .lessThanOrEqual a b ↔ Holds lib .lessThan a b ∨ Holds lib .equals a b
  symm : Holds lib .equals a b → Holds lib .equals b a
  trans : Holds lib .equals a b → Holds lib .equals b c → Holds lib .equals a c

variable {lib} {a b : ν}

theorem holds_equals : Holds lib .equals a b ↔
    ∃ m n, lib.asNumber a = some m ∧ lib.asNumber b = some n ∧ numbersEqual lib m n = true := by
  have reads : compareValues lib CompareOp.equals.name (some (.number a)) (.number b) =
      .ok (valuesEqual lib (.number a) (.number b)) := rfl
  rw [Holds, reads]
  cases first : lib.asNumber a <;> cases second :
    lib.asNumber b <;> simp [valuesEqual, first, second]

theorem holds_ordered {op : CompareOp} {accept : Int → Bool} (orders : ∀ value target,
    compareValues lib op.name (some value) target = .ok (orderedCmp lib accept value target)) :
    Holds lib op a b ↔ ∃ x y, asFloat lib a = some x ∧ asFloat lib b = some y ∧
    accept (sign x y) = true := by
  rw [Holds, orders]
  cases first : asFloat lib a <;> cases second : asFloat lib b <;> simp [orderedCmp, first, second]

theorem sign_cases
    (x y : φ) : (x < y ∧ sign x y = -1) ∨ (x = y ∧ sign x y = 0) ∨ (y < x ∧ sign x y = 1) := by
  rcases lt_trichotomy x y with less | rfl | greater
  · exact .inl ⟨less, if_pos less⟩
  · exact .inr (.inl ⟨rfl, by simp [sign]⟩)
  · exact .inr (.inr ⟨greater, by simp [sign, greater, greater.le]⟩)

theorem holds_of_asFloat {x y : φ} (first : asFloat lib a = some x)
    (second : asFloat lib b = some y) :
    (Holds lib .lessThan a b ↔ x < y) ∧ (Holds lib .greaterThan a b ↔ y < x) ∧
      (Holds lib .lessThanOrEqual a b ↔ x ≤ y) ∧ (Holds lib .greaterThanOrEqual a b ↔ y ≤ x) := by
  have signed {op : CompareOp} {accept : Int → Bool} (orders : ∀ value target,
      compareValues lib op.name (some value) target = .ok (orderedCmp lib accept value target)) :
      Holds lib op a b ↔ accept (sign x y) = true := by
    rw [holds_ordered orders]
    simp [first, second]
  rw [signed fun _ _ => rfl, signed fun _ _ => rfl, signed fun _ _ => rfl, signed fun _ _ => rfl]
  rcases sign_cases x y with ⟨less, is⟩ | ⟨rfl, is⟩ | ⟨greater, is⟩
  · simp [is, less, less.le, less.not_gt]
  · simp [is]
  · simp [is, greater, greater.le, greater.not_gt]

/-- Between numbers without a `float64` value no comparison holds, if the laws do. -/
theorem Ordered.exists_float (ordered : Ordered lib a a a) : ∃ x, asFloat lib a = some x := by
  by_contra missing
  have unordered {op : CompareOp} {accept : Int → Bool} (orders : ∀ value target, compareValues lib
      op.name (some value) target = .ok (orderedCmp lib accept value target)) :
        ¬ Holds lib op a a := by
    rw [holds_ordered orders]
    exact fun ⟨x, _, found, _⟩ => missing ⟨x, found⟩
  rcases ordered.comparable with less | equal | greater
  · exact unordered (fun _ _ => rfl) less
  · exact unordered (fun _ _ => rfl) (ordered.greaterOrEqual.2 (.inr equal))
  · exact unordered (fun _ _ => rfl) greater

/-- Numbers of one `float64` value are equal, if the laws hold. -/
theorem Ordered.equals {c : ν} (ordered : Ordered lib a b c)
    (same : asFloat lib a = asFloat lib b) : Holds lib .equals a b := by
  rcases ordered.comparable with less | equal | greater
  · obtain ⟨x, y, first, second, below⟩ := (holds_ordered fun _ _ => rfl).1 less
    obtain rfl := some.inj (first.symm.trans (same.trans second))
    simp [sign] at below
  · exact equal
  · obtain ⟨x, y, first, second, above⟩ := (holds_ordered fun _ _ => rfl).1 greater
    obtain rfl := some.inj (first.symm.trans (same.trans second))
    simp [sign] at above

end Laws

section Integers

variable (sprint : Value Number → Text)

/-- The numbers are numbers of `asNumber` with `float64` values, and different `int64` ones have
different values. -/
structure Distinguished (allowed : Number → Prop) : Prop where
  finite : ∀ a, allowed a → ∃ m, a.asNumber = some m ∧ nearest m.value.natAbs < float64Limit
  apart : ∀ a b, allowed a → allowed b → ∀ m n, a.asNumber = some m → b.asNumber = some n →
    ((integers fun _ => []).int64 m).isSome → ((integers fun _ => []).int64 n).isSome →
      rounded m.value = rounded n.value → m.value = n.value

theorem int64_eq {n : Literal} {x : Int} (is : (integers sprint).int64 n = some x) : n.value = x :=
  some.inj (ite_none_right_eq_some.1 is).2

theorem asFloat_of_finite {a : Number} {m : Literal} (read : a.asNumber = some m)
    (finite : nearest m.value.natAbs < float64Limit) : asFloat
    (integers sprint) a = some (rounded m.value) := by
  rw [asFloat, show (integers sprint).asNumber a = some m from read]
  exact if_pos finite

theorem exists_of_asFloat {a : Number} {x : Int} (floats : asFloat (integers sprint) a = some x) :
    ∃ m, a.asNumber = some m ∧ nearest m.value.natAbs < float64Limit := by
  obtain ⟨m, read, finite⟩ := bind_eq_some_iff.1 floats
  exact ⟨m, read, (ite_none_right_eq_some.1 finite).1⟩

theorem Distinguished.equals_iff {allowed : Number → Prop} (distinct : Distinguished allowed)
    {a b : Number} (first : allowed a) (second : allowed b) {m n : Literal}
    (read : a.asNumber = some m) (other : b.asNumber = some n) : Holds
    (integers sprint) .equals a b ↔ rounded m.value = rounded n.value := by
  obtain ⟨_, read', finite⟩ := distinct.finite a first
  obtain rfl := some.inj (read.symm.trans read')
  obtain ⟨_, other', finite'⟩ := distinct.finite b second
  obtain rfl := some.inj (other.symm.trans other')
  have numbers :
    Holds (integers sprint) .equals a b ↔ numbersEqual (integers sprint) m n = true := by
    rw [holds_equals, show (integers sprint).asNumber a = some m from read,
      show (integers sprint).asNumber b = some n from other]
    simp
  rw [numbers, numbersEqual]
  split
  · next x y exact whole' =>
    rw [decide_eq_true_iff, ← int64_eq _ exact, ← int64_eq _ whole']
    exact ⟨congrArg rounded,
      distinct.apart a b first second m n read other (isSome_of_eq_some exact)
      (isSome_of_eq_some whole')⟩
  · simp [integers, finite, finite']

theorem nearest_of_le {n : Nat} (small : n ≤ 2 ^ 53) : nearest n = n := by
  rcases Nat.lt_or_eq_of_le small with less | rfl
  · exact if_pos less
  · decide

theorem rounded_of_le {n : Int} (small : n.natAbs ≤ 2 ^ 53) : rounded n = n := by
  rw [rounded, nearest_of_le small, Int.sign_mul_natAbs]

theorem lt_float64Limit {n : Nat} (small : n ≤ 2 ^ 53) : n < float64Limit := by
  unfold float64Limit
  exact small.trans_lt (lt_of_lt_of_le (by decide) (Nat.le_self_pow (by decide) (2 ^ 256)))

/-- A literal of a record or a configuration, as the comparisons get it. -/
def Arrives (literal : Literal) (a : Number) : Prop :=
  a = .json literal ∨ a = .fromYAML literal ∨ a = .fromJSON literal

theorem Arrives.asNumber {literal : Literal} {a : Number} (arrives : Arrives literal a)
    (small : literal.value.natAbs ≤ 2 ^ 53) :
    ∃ m, a.asNumber = some m ∧ m.value = literal.value := by
  have exact := rounded_of_le small
  rcases arrives with rfl | rfl | rfl
  · exact ⟨literal, rfl, rfl⟩
  · unfold Number.fromYAML
    split_ifs with fits big
    · exact ⟨_, rfl, rfl⟩
    · exact absurd ⟨big.1, by omega, by omega⟩ fits
    · exact ⟨_, rfl, exact⟩
  · exact ⟨_, rfl, exact⟩

/-- The laws hold for all triples of numbers from a set if and only if the set is distinguished. The
integers up to 2^53 are, in records and in configurations. -/
theorem ordered_iff (sprint : Value Number → Text) (allowed : Number → Prop) :
    ((∀ a b c, allowed a → allowed b → allowed c → Ordered (integers sprint) a b c) ↔
      Distinguished allowed) ∧
      Distinguished fun a => ∃ literal, literal.value.natAbs ≤ 2 ^ 53 ∧ Arrives literal a := by
  refine ⟨⟨fun ordered => ⟨fun a mem => ?_, ?_⟩, fun distinct a b c first second third => ?_⟩, ?_,
    ?_⟩
  · obtain ⟨x, floats⟩ := (ordered a a a mem mem mem).exists_float
    exact exists_of_asFloat _ floats
  · intro a b first second m n read other exact whole' same
    obtain ⟨_, read', finite⟩ :=
      exists_of_asFloat _ (ordered a a a first first first).exists_float.choose_spec
    obtain rfl := some.inj (read.symm.trans read')
    obtain ⟨_, other', finite'⟩ :=
      exists_of_asFloat _ (ordered b b b second second second).exists_float.choose_spec
    obtain rfl := some.inj (other.symm.trans other')
    have equal := (ordered a b b first second second).equals
      (by rw [asFloat_of_finite _ read finite, asFloat_of_finite _ other finite', same])
    obtain ⟨_, _, read', other', equal⟩ := holds_equals.1 equal
    obtain rfl := some.inj (read.symm.trans read')
    obtain rfl := some.inj (other.symm.trans other')
    obtain ⟨x, is⟩ := isSome_iff_exists.1 exact
    obtain ⟨y, is'⟩ := isSome_iff_exists.1 whole'
    rw [int64_eq _ is, int64_eq _ is']
    simpa [numbersEqual, show (integers sprint).int64 m = some x from is,
      show (integers sprint).int64 n = some y from is'] using equal
  · obtain ⟨l, read, finite⟩ := distinct.finite a first
    obtain ⟨m, read', finite'⟩ := distinct.finite b second
    obtain ⟨n, read'', -⟩ := distinct.finite c third
    obtain ⟨less, greater, lessOrEqual, greaterOrEqual⟩ := holds_of_asFloat
      (asFloat_of_finite sprint read finite) (asFloat_of_finite sprint read' finite')
    have equal := distinct.equals_iff sprint first second read read'
    have back := distinct.equals_iff sprint second first read' read
    have next := distinct.equals_iff sprint second third read' read''
    have far := distinct.equals_iff sprint first third read read''
    refine ⟨?_, ?_, ?_, ?_, ?_, ?_, ?_, ?_⟩ <;> simp only [less, greater, lessOrEqual,
      greaterOrEqual, equal, back,
      next, far]
    · exact lt_trichotomy _ _
    · exact fun ⟨below, same⟩ => below.ne same
    · exact fun ⟨above, same⟩ => above.ne same.symm
    · exact fun ⟨below, above⟩ => below.asymm above
    · rw [le_iff_lt_or_eq, eq_comm (a := rounded m.value)]
    · exact le_iff_lt_or_eq
    · exact Eq.symm
    · exact Eq.trans
  · rintro a ⟨literal, small, arrives⟩
    obtain ⟨m, read, same⟩ := arrives.asNumber small
    rw [← same] at small
    exact ⟨m, read, by rw [nearest_of_le small]; exact lt_float64Limit small⟩
  · rintro a b ⟨literal, small, arrives⟩ ⟨other, small', arrives'⟩ m n read read' - - same
    obtain ⟨_, again, value⟩ := arrives.asNumber small
    obtain rfl := some.inj (read.symm.trans again)
    obtain ⟨_, again', value'⟩ := arrives'.asNumber small'
    obtain rfl := some.inj (read'.symm.trans again')
    rwa [rounded_of_le (by rwa [value]), rounded_of_le (by rwa [value'])] at same

/-- Of 2^53 and 2^53 + 1 none is less, equal or greater, although both equal 2^53 with a fraction;
and 2^63 of a record is neither less nor equal to nor greater than 2^63 of a YAML configuration. -/
theorem large_unordered :
    let lib := integers fun _ => []
    ¬ Holds lib .lessThan (.json ⟨2 ^ 53, true⟩) (.json ⟨2 ^ 53 + 1, true⟩) ∧
    ¬ Holds lib .equals (.json ⟨2 ^ 53, true⟩) (.json ⟨2 ^ 53 + 1, true⟩) ∧
    ¬ Holds lib .greaterThan (.json ⟨2 ^ 53, true⟩) (.json ⟨2 ^ 53 + 1, true⟩) ∧
    Holds lib .equals (.json ⟨2 ^ 53, true⟩) (.json ⟨2 ^ 53, false⟩) ∧
    Holds lib .equals (.json ⟨2 ^ 53, false⟩) (.json ⟨2 ^ 53 + 1, true⟩) ∧
    ∀ op ∈ [CompareOp.lessThan, .equals, .greaterThan],
      ¬ Holds lib op (.json ⟨2 ^ 63, true⟩) (.fromYAML ⟨2 ^ 63, true⟩) := by
  intro lib
  have floats (n : Literal) (rounds : nearest n.value.natAbs = 2 ^ 53)
    (positive : n.value.sign = 1) :
      lib.float64 n = some (2 ^ 53) := by
    have finite : nearest n.value.natAbs < float64Limit := rounds ▸ lt_float64Limit (Nat.le_refl _)
    rw [show lib.float64 n = _ from if_pos finite, rounded, rounds, positive]
    rfl
  have even := floats ⟨2 ^ 53, true⟩ (by decide) (by decide)
  have odd := floats ⟨2 ^ 53 + 1, true⟩ (by decide) (by decide)
  have written := floats ⟨2 ^ 53, false⟩ (by decide) (by decide)
  obtain ⟨less, greater, -⟩ := holds_of_asFloat
    (show asFloat lib (.json ⟨2 ^ 53, true⟩) = _ from even)
    (show asFloat lib (.json ⟨2 ^ 53 + 1, true⟩) = _ from odd)
  have reads (n : Literal) : lib.asNumber (.json n) = some n := rfl
  have numbers {m n : Literal} :
    Holds lib .equals (.json m) (.json n) ↔ numbersEqual lib m n = true := by
    simp [holds_equals, reads]
  have ints :
    lib.int64 ⟨2 ^ 53, true⟩ = some (2 ^ 53) ∧ lib.int64 ⟨2 ^ 53 + 1, true⟩ = some (2 ^ 53 + 1) ∧
      lib.int64 ⟨2 ^ 53, false⟩ = none := ⟨rfl, rfl, rfl⟩
  simp only [less, greater, numbers, numbersEqual, ints.1, ints.2.1, ints.2.2, even, odd, written]
  refine ⟨by decide, by decide, by decide, by decide, by decide, fun op mem => ?_⟩
  have unread : lib.asNumber (.fromYAML ⟨2 ^ 63, true⟩) = none := rfl
  simp only [mem_cons, not_mem_nil, or_false] at mem
  rcases mem with rfl | rfl | rfl
  all_goals
    first | rw [holds_equals] | rw [holds_ordered fun _ _ => rfl]
    simp only [asFloat, unread, bind_none, reduceCtorEq, false_and, and_false, exists_false,
      not_false_eq_true]

end Integers

/-! ## Filters of an accepted workflow -/

/-- `FilterConfig`; a value that is not configured is null. -/
structure FilterConfig (ν : Type) where
  field : Text
  operator : String
  value : Value ν

/-- `FilterConfig.Validate`, which the compiler does not call. -/
def FilterConfig.validate (cfg : FilterConfig ν) : Prop :=
  cfg.field ≠ [] ∧ ∃ op, CompareOp.ofName cfg.operator = some op ∧
    (op.needsValue → cfg.value ≠ .null)

/-- The predicate of `BuildFilter` on a decoded record. -/
def buildFilter [LinearOrder φ] (lib : Numerals ν κ φ) (cfg : FilterConfig ν)
    (data : JSONRecord ν) : Bool :=
  match compareValues lib cfg.operator (getField data cfg.field) cfg.value with
  | .ok keep => keep
  | .error _ => false

/-- The config block of an operator; of the kinds without a comparison, whether their own checks
pass. -/
inductive Block (ν : Type)
  | filter (cfg : FilterConfig ν)
  | other (kind : String) (accepted : Bool)

/-- An operator of the pipeline, with the config blocks that are set. -/
structure OperatorSpec (ν : Type) where
  id : String
  kind : String
  blocks : List (Block ν)

structure Document (ν : Type) where
  pipeline : List (OperatorSpec ν)
  /-- Whether the checks that read no filter pass: version, name, sources, sink, runtime, order of
  the keyed operators, delivery guarantee and secrets. -/
  outside : Bool

def supportedOperatorTypes : List String :=
  ["filter", "selectFields", "renameFields", "setFields", "keyBy", "reduce", "window", "join",
    "map", "flatMap",
    "process"]

def Block.kind : Block ν → String
  | filter _ => "filter"
  | other kind _ => kind

/-- The checks of `validator.structural` and `validator.configuration` on one operator. -/
def OperatorSpec.accepted (op : OperatorSpec ν) : Bool :=
  op.id ≠ "" ∧ op.kind ∈ supportedOperatorTypes ∧ op.blocks.map Block.kind = [op.kind] ∧
    op.blocks.all fun
      | .filter cfg => cfg.field ≠ [] ∧ cfg.operator ≠ ""
      | .other _ accepted => accepted

/-- `CompileWorkflow`: the filters of the stream. -/
def compileWorkflow (doc : Document ν) : Option (List (FilterConfig ν)) :=
  if doc.outside ∧ doc.pipeline.all OperatorSpec.accepted ∧
    (doc.pipeline.map OperatorSpec.id).Nodup then
    some (doc.pipeline.flatMap fun op => op.blocks.filterMap fun
      | .filter cfg => some cfg
      | .other _ _ => none)
  else none

/-- What the filter answers is the outcome of a supported comparison, of the value at a well-formed
path and a configured value if the operator needs one. -/
def Justified [LinearOrder φ] (lib : Numerals ν κ φ) (cfg : FilterConfig ν) (data : JSONRecord ν) :
    Prop :=
  (∃ p, splitPath cfg.field = .ok p) ∧
    ∃ op, CompareOp.ofName cfg.operator = some op ∧ (op.needsValue → cfg.value ≠ .null) ∧
      compareValues lib cfg.operator (getField data cfg.field) cfg.value =
        .ok (buildFilter lib cfg data)

theorem exists_outcome [LinearOrder φ] (lib : Numerals ν κ φ) {name : String} {op : CompareOp}
    (supported : CompareOp.ofName name = some op) (field : Option (Value ν)) (target : Value ν) :
    ∃ keep, compareValues lib name field target = .ok keep := by
  unfold compareValues
  rw [supported]
  cases op <;> cases field <;> exact ⟨_, rfl⟩

/-- The filters of an accepted workflow are justified exactly if their own check and that of their
paths pass. -/
theorem filters_justified_iff [LinearOrder φ] (lib : Numerals ν κ φ) (doc : Document ν)
    (filters : List (FilterConfig ν))
    (accepted : compileWorkflow doc = some filters) :
      (∀ cfg ∈ filters, ∀ data, Justified lib cfg data) ↔
      ∀ cfg ∈ filters, cfg.validate ∧ ∃ p, splitPath cfg.field = .ok p := by
  have named : ∀ cfg ∈ filters, cfg.field ≠ [] := by
    unfold compileWorkflow at accepted
    split at accepted
    · next checked =>
      cases accepted
      intro cfg mem
      obtain ⟨op, inside, mem⟩ := mem_flatMap.1 mem
      obtain ⟨block, own, is⟩ := mem_filterMap.1 mem
      have passed := List.all_eq_true.1 checked.2.1 op inside
      cases block with
      | other => cases is
      | filter cfg =>
        cases is
        simp only [OperatorSpec.accepted, decide_eq_true_eq] at passed
        have fine := List.all_eq_true.1 passed.2.2.2 _ own
        simpa using (of_decide_eq_true fine).1
    · cases accepted
  refine ⟨fun justified cfg mem => ?_, fun valid cfg mem data => ?_⟩
  · obtain ⟨well, op, supported, given, -⟩ := justified cfg mem .empty
    exact ⟨⟨named cfg mem, op, supported, given⟩, well⟩
  · obtain ⟨⟨-, op, supported, given⟩, well⟩ := valid cfg mem
    obtain ⟨keep, outcome⟩ := exists_outcome lib supported (getField data cfg.field) cfg.value
    exact ⟨well, op, supported, given, by simp [buildFilter, outcome]⟩

def filtering (operator : String) : Document Number :=
  ⟨[⟨"f", "filter", [.filter ⟨['a'], operator, .number (.int 1)⟩]⟩], true⟩

/-- The filter on equality is accepted. -/
theorem filtering_justified : ∃ filters, compileWorkflow (filtering "equals") = some filters ∧
    ∀ cfg ∈ filters, ∀ data, Justified (integers fun _ => []) cfg data := by
  refine ⟨[⟨['a'], "equals", .number (.int 1)⟩], rfl, ?_⟩
  refine (filters_justified_iff _ (filtering "equals") _ rfl).2 ?_
  intro cfg mem
  obtain rfl := mem_singleton.1 mem
  exact ⟨⟨by simp, .equals, rfl, by simp⟩, [['a']], rfl⟩

/-- A filter with a misspelt operator is accepted, and drops every record. -/
theorem misspelt_drops : ∃ cfg, compileWorkflow (filtering "equal") = some [cfg] ∧ ∀ data,
    buildFilter (integers fun _ => []) cfg data = false ∧
      compareValues (integers fun _ => []) cfg.operator (getField data cfg.field) cfg.value =
        .error "equal" :=
  ⟨⟨['a'], "equal", .number (.int 1)⟩, rfl, fun _ => ⟨rfl, rfl⟩⟩

end Weibo.Workflow
