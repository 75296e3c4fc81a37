import Mathlib.Algebra.Order.Ring.Int
import Mathlib.Tactic.Ring
import Weibo.Types.Record

/-!
# Delays between attempts

`RestartPolicy.Backoff` doubles a delay up to a maximum; `fetchWithRetry` shifts a second to the
left and cuts it off at thirty. Both compute in 64 bits and look at the bound only when the number
may have wrapped around.
-/

namespace Weibo

open Int

/-- `RestartPolicy`, with its delays in nanoseconds. -/
structure RestartPolicy where
  baseBackoff : Int
  maxBackoff : Int

namespace RestartPolicy

/-- The loop of `Backoff`, with the rounds that are left. -/
def double (p : RestartPolicy) : Nat → Int → Int
  | 0, d => d
  | rounds + 1, d =>
    if 0 < p.maxBackoff ∧ p.maxBackoff ≤ int64 (d * 2) then p.maxBackoff
    else p.double rounds (int64 (d * 2))

def backoff (p : RestartPolicy) (attempt : Int) : Int :=
  p.double ((if attempt < 1 then 1 else attempt) - 1).toNat p.baseBackoff

/-- What a delay should be: the closed form, and with it positive, bounded and monotone. -/
structure Sound (p : RestartPolicy) (attempt : Int) : Prop where
  positive : 0 < p.backoff attempt
  bounded : p.backoff attempt ≤ p.maxBackoff
  monotone : ∀ later, attempt ≤ later → later < 2 ^ 63 → p.backoff attempt ≤ p.backoff later
  closed : p.backoff attempt = min (p.baseBackoff * 2 ^ (attempt - 1).toNat) p.maxBackoff

/-- What the loop doubles from `d` on fits 64 bits afterwards. -/
def Doubles (p : RestartPolicy) (d : Int) : Prop :=
  d < 2 ^ 62 ∧ ∀ k : Nat, d * 2 ^ k < p.maxBackoff → d * 2 ^ k < 2 ^ 62

variable {p : RestartPolicy} {d : Int}

theorem double_eq (doubles : p.Doubles d) (positive : 0 < d) (below : d ≤ p.maxBackoff)
    (rounds : Nat) : p.double rounds d = min (d * 2 ^ rounds) p.maxBackoff := by
  induction rounds generalizing d with
  | zero => simp [double, below]
  | succ rounds ih =>
    obtain ⟨small, later⟩ := doubles
    have fits : int64 (d * 2) = d * 2 := int64_of_bounds (by omega) (by omega)
    have power : ∀ k : Nat, d * 2 ^ (k + 1) = d * 2 * 2 ^ k := fun k => by ring
    simp only [double, fits, power]
    split
    · next capped =>
      have grows : d * 2 * 1 ≤ d * 2 * 2 ^ rounds :=
        Int.mul_le_mul_of_nonneg_left (Int.pow_pos (by decide)) (by omega)
      exact (min_eq_right (by omega)).symm
    · next under =>
      refine ih ⟨?_, fun k less => ?_⟩ (by omega) (by omega)
      · simpa using later 1 (by omega)
      · rw [← power] at less ⊢
        exact later (k + 1) less

theorem double_add {k rounds : Nat} (under : ∀ j < k, d * 2 ^ (j + 1) < p.maxBackoff)
    (small : ∀ j < k, d * 2 ^ j < 2 ^ 62) (positive : 0 < d) : p.double
    (k + rounds) d = p.double rounds (d * 2 ^ k) := by
  induction k generalizing d with
  | zero => simp
  | succ k ih =>
    have power : ∀ k : Nat, d * 2 ^ (k + 1) = d * 2 * 2 ^ k := fun k => by ring
    have first := small 0 (by omega)
    have next := under 0 (by omega)
    have fits : int64 (d * 2) = d * 2 := int64_of_bounds (by omega) (by omega)
    rw [show k + 1 + rounds = k + rounds + 1 by omega, double, fits, if_neg (by omega), power]
    refine ih (fun j less => ?_) (fun j less => ?_) (by omega)
    · exact power (j + 1) ▸ under (j + 1) (by omega)
    · exact power j ▸ small (j + 1) (by omega)

/-- A delay of more than 62 bits is negative once it is doubled. -/
theorem int64_double_neg (wide : 2 ^ 62 ≤ d) (fits : d < 2 ^ 63) : int64 (d * 2) < 0 := by
  rw [int64, bmod_def]
  omega

theorem backoff_of_pos (p : RestartPolicy) {attempt : Int} (positive : 1 ≤ attempt) :
    p.backoff attempt = p.double (attempt - 1).toNat p.baseBackoff := by
  rw [backoff, if_neg (by omega)]

/-- The delays are right for every attempt exactly if the base does not exceed the maximum and no
delay that is doubled has more than 62 bits. -/
theorem sound_iff (p : RestartPolicy) (base : 0 < p.baseBackoff) (most : 0 < p.maxBackoff)
    (fits : p.baseBackoff < 2 ^ 63 ∧ p.maxBackoff < 2 ^ 63) :
    (∀ attempt, attempt < 2 ^ 63 → p.Sound attempt) ↔
      p.baseBackoff ≤ p.maxBackoff ∧ p.Doubles p.baseBackoff := by
  have power : ∀ k : Nat, 0 < (2 : Int) ^ k := fun k => Int.pow_pos (by decide)
  constructor
  · intro sound
    have below : p.baseBackoff ≤ p.maxBackoff := (sound 1 (by decide)).bounded
    have small :
      ∀ k : Nat, k = 0 ∨ p.baseBackoff * 2 ^ k < p.maxBackoff → p.baseBackoff * 2 ^ k < 2 ^ 62 := by
      intro k
      induction k using Nat.strong_induction_on with
      | _ k ih =>
        intro under
        by_contra wide
        have bits : k < 63 := by
          by_contra long
          have grows : (2 : Int) ^ 63 ≤ 2 ^ k := pow_le_pow_right₀ (by decide) (by omega)
          have scaled := mul_le_mul_of_nonneg_right (show 1 ≤ p.baseBackoff by omega) (power k).le
          omega
        have before : ∀ j < k, p.baseBackoff * 2 ^ (j + 1) < p.maxBackoff := fun j less =>
          (mul_le_mul_of_nonneg_left (pow_le_pow_right₀ (by decide) less) base.le).trans_lt
            (under.resolve_left (by omega))
        have wraps : int64 (p.baseBackoff * 2 ^ k * 2) < 0 :=
          int64_double_neg (by omega) (by rcases under with rfl | less <;> omega)
        have reached : p.double (k + 1) p.baseBackoff = int64 (p.baseBackoff * 2 ^ k * 2) := by
          have started : ∀ j < k, p.baseBackoff * 2 ^ j < 2 ^ 62 := fun j less => ih j less <| by
            cases j with
            | zero => exact .inl rfl
            | succ j => exact .inr (before j (by omega))
          rw [double_add before started base]
          exact if_neg (by omega)
        have positive := (sound (k + 2) (by omega)).positive
        rw [backoff_of_pos p (by omega), show (k + 2 - 1 : Int).toNat = k + 1 by omega, reached]
          at positive
        omega
    exact ⟨below, by simpa using small 0 (.inl rfl), fun k less => small k (.inr less)⟩
  · rintro ⟨below, doubles⟩
    have closed : ∀ attempt, p.backoff attempt =
        min (p.baseBackoff * 2 ^ (attempt - 1).toNat) p.maxBackoff := by
      intro attempt
      rw [backoff, double_eq doubles base below]
      split
      · rw [show (attempt - 1).toNat = 0 by omega]
        rfl
      · rfl
    intro attempt _
    refine ⟨?_, ?_, fun later order _ => ?_, closed attempt⟩
    · rw [closed]
      exact lt_min (mul_pos base (power _)) most
    · rw [closed]
      exact min_le_right _ _
    · rw [closed, closed]
      refine min_le_min_right _ (mul_le_mul_of_nonneg_left ?_ base.le)
      exact pow_le_pow_right₀ (by decide) (by omega)

/-- `DefaultRestartPolicy`. -/
def default : RestartPolicy := ⟨2000000000, 60000000000⟩

/-- The default policy after three failures. -/
theorem default_sound : (default : RestartPolicy).Sound 3 :=
  (sound_iff default (by decide) (by decide) (by decide)).2
    ⟨by decide, by decide, fun _ less => less.trans (by decide)⟩ 3 (by decide)

/-- The first delay is not compared with the maximum, and a doubled delay can be negative. -/
theorem backoff_unbounded : 1000000000 < (RestartPolicy.mk 2000000000 1000000000).backoff 1 ∧
    (RestartPolicy.mk (2 ^ 62) (2 ^ 63 - 1)).backoff 2 < 0 := by decide

end RestartPolicy

/-! ## Fetching -/

namespace KafkaSource

def second : Int := 1000000000

/-- `1 << uint(attempt)` as a `time.Duration`. -/
def shift (attempt : Int) : Int :=
  let bits := (attempt % 2 ^ 64).toNat
  if bits < 64 then int64 (2 ^ bits) else 0

/-- The delay `fetchWithRetry` computes after a failed attempt. -/
def fetchBackoff (attempt : Int) : Int :=
  let backoff := int64 (shift attempt * second)
  if backoff > 30 * second then 30 * second else backoff

/-- The delays of the loop of `fetchWithRetry` without a bound on the retries, when the next fetches
fail. -/
def fetchDelays : (failures : Nat) → (attempt : Int) → List Int
  | 0, _ => []
  | failures + 1, attempt => fetchBackoff attempt :: fetchDelays failures (int64 (attempt + 1))

/-- A delay, seen beside the one before it. -/
def Sane (previous delay : Int) : Prop := second ≤ delay ∧ delay ≤ 30 * second ∧ previous ≤ delay

instance (previous delay : Int) : Decidable (Sane previous delay) :=
  inferInstanceAs (Decidable (_ ∧ _ ∧ _))

/-- The attempts after which the product, if it wraps around, is positive again and is cut off. -/
def luckyAttempts : List Nat := [37, 41, 42, 45, 47, 50, 51, 53]

theorem fetchBackoff_int64 (n : Int) : fetchBackoff (int64 n) = fetchBackoff (n % 2 ^ 64) := by
  have same : int64 n % 2 ^ 64 = n % 2 ^ 64 % 2 ^ 64 := by
    rw [emod_emod_of_dvd _ (dvd_refl _)]
    exact bmod_emod
  unfold fetchBackoff shift
  rw [same]

theorem getElem?_fetchDelays {failures i : Nat} (failed : i < failures) (attempt : Int) :
    (fetchDelays failures (int64 attempt))[i]? = some (fetchBackoff (int64 (attempt + i))) := by
  induction failures generalizing i attempt with
  | zero => omega
  | succ failures ih =>
    cases i with
    | zero => simp [fetchDelays]
    | succ i =>
      have next : int64 (int64 attempt + 1) = int64 (attempt + 1) := bmod_add_bmod
      rw [fetchDelays, List.getElem?_cons_succ, next, ih (by omega)]
      push_cast
      rw [add_assoc, add_comm 1]

theorem fetchBackoff_of_long {bits : Nat} (long : 64 ≤ bits)
    (fits : bits < 2 ^ 64) : fetchBackoff bits = 0 := by
  have same : ((bits : Int) % 2 ^ 64).toNat = bits := by omega
  have none : shift bits = 0 := by
    unfold shift
    rw [same]
    exact if_neg (by omega)
  unfold fetchBackoff
  rw [none, zero_mul]
  rfl

theorem sane_iff_of_short :
    ∀ bits < 65, Sane (if bits = 0 then 0 else fetchBackoff (bits - 1 : Nat)) (fetchBackoff bits) ↔
    bits ≤ 33 ∨ bits ∈ luckyAttempts := by
  decide

/-- The delay after an attempt is between one and thirty seconds and not below the one before it
exactly if the attempt's number, counted modulo the word size, is at most 33 or one of eight later
ones. -/
theorem fetchDelays_sane_iff {failures i : Nat} (failed : i < failures) :
    ∃ previous delay, (0 :: fetchDelays failures 0)[i]? = some previous ∧
      (fetchDelays failures 0)[i]? = some delay ∧
      (Sane previous delay ↔ i % 2 ^ 64 ≤ 33 ∨ i % 2 ^ 64 ∈ luckyAttempts) := by
  have now :
    ∀ j < failures, (fetchDelays failures 0)[j]? = some (fetchBackoff (j % 2 ^ 64 : Nat)) := by
    intro j less
    have delay := getElem?_fetchDelays less 0
    rw [fetchBackoff_int64, zero_add] at delay
    exact_mod_cast delay
  refine ⟨if i % 2 ^ 64 = 0 then 0 else fetchBackoff (i % 2 ^ 64 - 1 : Nat), _, ?_, now i failed,
    ?_⟩
  · cases i with
    | zero => rfl
    | succ i =>
      rw [List.getElem?_cons_succ, now i (by omega)]
      split
      · next zero => rw [fetchBackoff_of_long (by omega) (by omega)]
      · next more => rw [show (i + 1) % 2 ^ 64 - 1 = i % 2 ^ 64 by omega]
  · by_cases short : i % 2 ^ 64 < 65
    · exact sane_iff_of_short _ short
    · rw [fetchBackoff_of_long (Nat.le_of_lt_succ (by omega)) (Nat.mod_lt i (by decide))]
      refine iff_of_false (fun sane => absurd sane.1 (by decide)) ?_
      rintro (early | lucky)
      · omega
      · have bound : ∀ n ∈ luckyAttempts, n < 65 := by decide
        exact short (bound _ lucky)

/-- Five fetches in a row fail. -/
theorem fifth_delay_sane : ∃ previous delay, (0 :: fetchDelays 5 0)[4]? = some previous ∧
    (fetchDelays 5 0)[4]? = some delay ∧ Sane previous delay := by
  obtain ⟨previous, delay, before, here, iff⟩ := fetchDelays_sane_iff (show 4 < 5 by decide)
  exact ⟨previous, delay, before, here, iff.2 (.inl (by decide))⟩

/-- The 35th delay in a row is negative, and those from the 56th on are zero. -/
theorem late_delays :
    (fetchDelays 35 0)[34]?.any (· < 0) = true ∧ (fetchDelays 56 0)[55]? = some 0 := by
  decide +kernel

end KafkaSource

end Weibo
