import Mathlib.Data.Int.ModEq
import Mathlib.Tactic.Ring
import Weibo.Types.Record

/-!
# Window assigners

A window is a time range `[start, end)`; an assigner says which windows a timestamp falls
into. The alignment works on Unix nanoseconds with Go's truncating division.
-/

namespace Weibo

open List Int

/-- `window.Window`, the time range `[start, stop)`. -/
structure Window where
  start : Time
  stop : Time
  deriving DecidableEq

def windowStart (ts : Time) (size offset : Duration) : Time :=
  (ts.unixNano - offset).tdiv size * size + offset

structure Tumbling where
  size : Duration
  offset : Duration := 0
  size_pos : 0 < size

structure Sliding where
  size : Duration
  slide : Duration
  offset : Duration := 0
  size_pos : 0 < size
  slide_pos : 0 < slide

structure Session where
  gap : Duration

def Tumbling.assignWindows (t : Tumbling) (timestamp : Time) : List Window :=
  let start := windowStart timestamp t.size t.offset
  [⟨start, start + t.size⟩]

/-- The first loop of `Sliding.AssignWindows`, from the last aligned start backwards. -/
def Sliding.backwards (s : Sliding) (timestamp : Time) : Nat → Time → List Window
  | 0, _ => []
  | fuel + 1, start =>
    if start + s.size > timestamp then
      (if start ≤ timestamp then [⟨start, start + s.size⟩] else []) ++
        s.backwards timestamp fuel (start - s.slide)
    else []

/-- The second loop of `Sliding.AssignWindows`, forwards. -/
def Sliding.forwards (s : Sliding) (timestamp : Time) : Nat → Time → List Window
  | 0, _ => []
  | fuel + 1, start =>
    if start < timestamp + s.size then
      (if start ≤ timestamp ∧ start + s.size > timestamp then [⟨start, start + s.size⟩] else []) ++
        s.forwards timestamp fuel (start + s.slide)
    else []

/-- `Sliding.AssignWindows`. The fuel is the number of slides between the first start of a
loop and the bound it runs to, rounded up. -/
def Sliding.assignWindows (s : Sliding) (timestamp : Time) : List Window :=
  let lastStart := windowStart timestamp s.slide s.offset
  let windows :=
    s.backwards timestamp ((lastStart + s.size - timestamp) / s.slide + 1).toNat lastStart ++
      s.forwards timestamp ((timestamp + s.size - lastStart) / s.slide + 1).toNat
        (lastStart + s.slide)
  if windows.isEmpty then [⟨lastStart, lastStart + s.size⟩] else windows

inductive WindowAssigner
  | tumbling (t : Tumbling)
  | sliding (s : Sliding)
  | session (s : Session)

def WindowAssigner.assignWindows : WindowAssigner → Time → List Window
  | .tumbling t, timestamp => t.assignWindows timestamp
  | .sliding s, timestamp => s.assignWindows timestamp
  | .session s, timestamp => [⟨timestamp, timestamp + s.gap⟩]

def WindowAssigner.isSession : WindowAssigner → Bool
  | .session _ => true
  | _ => false

def WindowAssigner.Proper : WindowAssigner → Prop
  | .tumbling _ => True
  | .sliding s => s.slide ≤ s.size
  | .session s => 0 < s.gap

theorem lt_windowStart_add (ts : Time) {size : Int} (positive : 0 < size) (offset : Int) :
    ts.unixNano < windowStart ts size offset + size := by
  have division := mul_tdiv_add_tmod (ts.unixNano - offset) size
  have remainder := tmod_lt_of_pos (ts.unixNano - offset) positive
  have product := mul_comm size ((ts.unixNano - offset).tdiv size)
  have start : windowStart ts size offset = (ts.unixNano - offset).tdiv size * size + offset := rfl
  rw [start]
  omega

namespace Sliding

variable {s : Sliding} {ts : Int} {win : Window}

theorem backwards_spec (s : Sliding) (ts : Int) (fuel : Nat) (start : Int) :
    (∀ win ∈ s.backwards ts fuel start, win.start ≤ start ∧ ts < win.stop) ∧
      (s.backwards ts fuel start).Pairwise fun a b => b.start < a.start := by
  have slide : 0 < s.slide := s.slide_pos
  induction fuel generalizing start with
  | zero => simp [backwards]
  | succ fuel ih =>
    obtain ⟨members, decreasing⟩ := ih (start - s.slide)
    have later : ∀ win ∈ s.backwards ts fuel (start - s.slide), win.start < start := fun win mem =>
      lt_of_le_of_lt (members win mem).1 (sub_lt_self start slide)
    simp only [backwards]
    split
    next covers =>
      split
      · refine ⟨fun win mem => ?_, pairwise_cons.2 ⟨later, decreasing⟩⟩
        rcases mem_cons.1 mem with rfl | old
        · exact ⟨le_refl _, covers⟩
        · exact ⟨le_of_lt (later win old), (members win old).2⟩
      · exact ⟨fun win mem => ⟨le_of_lt (later win mem), (members win mem).2⟩, decreasing⟩
    · simp

theorem forwards_spec (s : Sliding) (ts : Int) (fuel : Nat) (start : Int) :
    (∀ win ∈ s.forwards ts fuel start, start ≤ win.start ∧ ts < win.stop) ∧
      (s.forwards ts fuel start).Pairwise fun a b => a.start < b.start := by
  have slide : 0 < s.slide := s.slide_pos
  induction fuel generalizing start with
  | zero => simp [forwards]
  | succ fuel ih =>
    obtain ⟨members, increasing⟩ := ih (start + s.slide)
    have later : ∀ win ∈ s.forwards ts fuel (start + s.slide), start < win.start := fun win mem =>
      lt_of_lt_of_le (lt_add_of_pos_right start slide) (members win mem).1
    simp only [forwards]
    split
    · split
      next covers =>
        refine ⟨fun win mem => ?_, pairwise_cons.2 ⟨later, increasing⟩⟩
        rcases mem_cons.1 mem with rfl | old
        · exact ⟨le_refl _, covers.2⟩
        · exact ⟨le_of_lt (later win old), (members win old).2⟩
      · exact ⟨fun win mem => ⟨le_of_lt (later win mem), (members win mem).2⟩, increasing⟩
    · simp

variable {start : Int}

theorem mem_backwards_iff {fuel : Nat} (enough : start + s.size - ts ≤ fuel * s.slide) :
    win ∈ s.backwards ts fuel start ↔
      ∃ k : Nat, win = ⟨start - k * s.slide, start - k * s.slide + s.size⟩ ∧
      start - k * s.slide ≤ ts ∧ ts < start - k * s.slide + s.size := by
  have slide : (0 : Int) < s.slide := s.slide_pos
  have none : ∀ {start : Int}, start + s.size ≤ ts →
    ∀ k : Nat, ¬ ts < start - k * s.slide + s.size := by
    intro start passed k
    have back :
      0 ≤ (k : Int) * s.slide := Int.mul_nonneg (Int.natCast_nonneg k) (Int.le_of_lt slide)
    omega
  induction fuel generalizing start with
  | zero =>
    have passed : start + s.size ≤ ts := by simpa using enough
    simp only [backwards, not_mem_nil, false_iff]
    rintro ⟨k, -, -, covers⟩
    exact none passed k covers
  | succ fuel ih =>
    have product : ((fuel + 1 : Nat) : Int) * s.slide = fuel * s.slide + s.slide := by
      rw [Nat.cast_add, Nat.cast_one, add_mul, one_mul]
    have next :
      ∀ k : Nat, start - s.slide - k * s.slide = start - ((k + 1 : Nat) : Int) * s.slide := by
      intro k
      rw [Nat.cast_add, Nat.cast_one, add_mul, one_mul]
      omega
    simp only [backwards]
    split
    · have left : start - s.slide + s.size - ts ≤ fuel * s.slide := by omega
      refine (mem_append.trans (or_congr_right (ih left))).trans ⟨?_, ?_⟩
      · rintro (here | ⟨k, rfl, early, covers⟩)
        · split at here
          · obtain rfl := mem_singleton.1 here
            exact ⟨0, by simp, by simpa, by simpa⟩
          · cases here
        · rw [next] at early covers ⊢
          exact ⟨k + 1, rfl, early, covers⟩
      · rintro ⟨k, rfl, early, covers⟩
        cases k with
        | zero => exact .inl (by simpa using early)
        | succ k =>
          refine .inr ⟨k, ?_⟩
          rw [next]
          exact ⟨rfl, early, covers⟩
    next passed =>
      simp only [not_mem_nil, false_iff]
      rintro ⟨k, -, -, covers⟩
      exact none (not_lt.1 passed) k covers

theorem backwards_of_le {fuel : Nat} (enough : start + s.size - ts ≤ fuel * s.slide) {more : Nat}
    (longer : fuel ≤ more) : s.backwards ts more start = s.backwards ts fuel start := by
  induction fuel generalizing start more with
  | zero =>
    have passed : ¬ start + s.size > ts := by simpa using enough
    cases more with
    | zero => rfl
    | succ more => simp [backwards, passed]
  | succ fuel ih =>
    obtain ⟨more, rfl⟩ : ∃ n, more = n + 1 := ⟨more - 1, by omega⟩
    have product : ((fuel + 1 : Nat) : Int) * s.slide = fuel * s.slide + s.slide := by
      rw [Nat.cast_add, Nat.cast_one, add_mul, one_mul]
    have left : start - s.slide + s.size - ts ≤ fuel * s.slide := by omega
    simp only [backwards, ih left (Nat.le_of_succ_le_succ longer)]

theorem forwards_eq_nil (after : ts < start) (fuel : Nat) : s.forwards ts fuel start = [] := by
  have slide : (0 : Int) < s.slide := s.slide_pos
  induction fuel generalizing start with
  | zero => rfl
  | succ fuel ih =>
    have late : ¬ start ≤ ts := by omega
    have later : ts < start + s.slide := by omega
    simp [forwards, late, ih later]

theorem le_slides (s : Sliding)
    (bound : Int) : bound ≤ ((bound / s.slide + 1).toNat : Int) * s.slide := by
  have slide : (0 : Int) < s.slide := s.slide_pos
  have above := lt_ediv_add_one_mul_self bound slide
  rcases le_total 0 (bound / s.slide + 1) with nonneg | neg
  · rw [toNat_of_nonneg nonneg]
    omega
  · have product : (bound / s.slide + 1) * s.slide ≤ 0 :=
      Int.mul_nonpos_of_nonpos_of_nonneg neg (Int.le_of_lt slide)
    rw [toNat_of_nonpos neg]
    simp
    omega

theorem backwards_iff_aligned {slide offset last : Int} (positive : 0 < slide)
    (aligned : last ≡ offset [ZMOD slide]) (after : ts < last + slide) : (∃ k : Nat,
    start = last - k * slide) ∧ start ≤ ts ↔ start ≡ offset [ZMOD slide] ∧ start ≤ ts := by
  refine and_congr_left fun early => ⟨?_, fun congruent => ?_⟩
  · rintro ⟨k, rfl⟩
    exact (modEq_iff_dvd.2 ⟨k, by ring⟩).trans aligned
  · obtain ⟨k, apart⟩ := modEq_iff_dvd.1 (congruent.trans aligned.symm)
    have nonneg : 0 ≤ k := by
      by_contra negative
      have far : slide * k ≤ slide * -1 :=
        Int.mul_le_mul_of_nonneg_left (by omega) (Int.le_of_lt positive)
      omega
    obtain ⟨n, rfl⟩ := eq_ofNat_of_zero_le nonneg
    have product : (n : Int) * slide = slide * n := mul_comm _ _
    exact ⟨n, by omega⟩

theorem exists_aligned {slide size : Int} (positive : 0 < slide) (narrow : slide ≤ size)
    (offset ts : Int) : ∃ start, start ≡ offset [ZMOD slide] ∧ start ≤ ts ∧ ts < start + size := by
  have floor := emod_add_mul_ediv (ts - offset) slide
  have least := emod_nonneg (ts - offset) (ne_of_gt positive)
  have most := emod_lt_of_pos (ts - offset) positive
  refine ⟨offset + slide * ((ts - offset) / slide), ?_, by omega, by omega⟩
  exact modEq_iff_dvd.2 ⟨-((ts - offset) / slide), by ring⟩

/-- `AssignWindows` returns, once each, exactly the aligned windows that contain the timestamp; both
of its loops end. -/
theorem mem_assignWindows_iff (s : Sliding) (narrow : s.slide ≤ s.size) {ts : Time}
    (fits : ts.unixNano = ts) :
    (∃ bound, ∀ fuel ≥ bound, s.backwards ts fuel (windowStart ts s.slide s.offset) ++
        s.forwards ts fuel (windowStart ts s.slide s.offset + s.slide) = s.assignWindows ts) ∧
      (s.assignWindows ts).Nodup ∧
      ∀ win, win ∈ s.assignWindows ts ↔ ∃ start : Int, win = ⟨start, start + s.size⟩ ∧
        start ≡ s.offset [ZMOD s.slide] ∧ start ≤ ts ∧ ts < start + s.size := by
  have after : ts < windowStart ts s.slide s.offset + s.slide := by
    have bound := lt_windowStart_add ts s.slide_pos s.offset
    rwa [fits] at bound
  have aligned : windowStart ts s.slide s.offset ≡ s.offset [ZMOD s.slide] := by
    rw [windowStart, modEq_iff_dvd]
    exact ⟨-(ts.unixNano - s.offset).tdiv s.slide, by ring⟩
  have enough := s.le_slides (windowStart ts s.slide s.offset + s.size - ts)
  have members : ∀ win, win ∈ s.backwards ts
      ((windowStart ts s.slide s.offset + s.size - ts) / s.slide + 1).toNat
        (windowStart ts s.slide s.offset) ↔
      ∃ start : Int, win = ⟨start, start + s.size⟩ ∧ start ≡ s.offset [ZMOD s.slide] ∧ start ≤ ts ∧
        ts < start + s.size := by
    intro win
    rw [mem_backwards_iff enough]
    constructor
    · rintro ⟨k, same, early, covers⟩
      exact ⟨_, same, ((backwards_iff_aligned s.slide_pos aligned after).1 ⟨⟨k, rfl⟩, early⟩).1,
        early, covers⟩
    · rintro ⟨start, same, congruent, early, covers⟩
      obtain ⟨⟨k, rfl⟩, -⟩ := (backwards_iff_aligned s.slide_pos aligned after).2 ⟨congruent, early⟩
      exact ⟨k, same, early, covers⟩
  have assigned : s.assignWindows ts = s.backwards ts
      ((windowStart ts s.slide s.offset + s.size - ts) / s.slide + 1).toNat
        (windowStart ts s.slide s.offset) := by
    obtain ⟨start, contains⟩ := exists_aligned s.slide_pos narrow s.offset ts
    have given := ne_nil_of_mem ((members _).2 ⟨start, rfl, contains⟩)
    simp only [assignWindows, forwards_eq_nil after, append_nil, List.isEmpty_iff, given, if_false]
  refine ⟨⟨((windowStart ts s.slide s.offset + s.size - ts) / s.slide + 1).toNat,
    fun fuel long => ?_⟩, ?_,
    fun win => ?_⟩
  · rw [forwards_eq_nil after, append_nil, backwards_of_le enough long, assigned]
  · rw [assigned]
    refine (s.backwards_spec ts _ _).2.imp fun {a b} less same => ?_
    rw [same] at less
    exact lt_irrefl _ less
  · rw [assigned]
    exact members win

/-- The windows of one minute that slide by twenty seconds, before the epoch. -/
theorem mem_assignWindows_before_epoch : (⟨-60, 0⟩ : Window) ∈
    (Sliding.mk 60 20 0 (by decide) (by decide)).assignWindows (-5 : Int) := by
  exact ((mem_assignWindows_iff (Sliding.mk 60 20 0 (by decide) (by decide)) (by decide)
    (by decide)).2.2 _).2
    ⟨-60, rfl, by decide, by decide, by decide⟩

end Sliding

namespace WindowAssigner

theorem lt_stop_of_mem {assigner : WindowAssigner} (proper : assigner.Proper) {ts : Time}
    (fits : ts.unixNano = ts) {win : Window} (mem : win ∈ assigner.assignWindows ts) :
    ts < win.stop := by
  cases assigner with
  | tumbling t =>
    obtain rfl := mem_singleton.1 mem
    have bound := lt_windowStart_add ts t.size_pos t.offset
    rw [fits] at bound
    exact bound
  | session s =>
    obtain rfl := mem_singleton.1 mem
    have positive : 0 < s.gap := proper
    exact lt_add_of_pos_right ts positive
  | sliding s =>
    simp only [assignWindows, Sliding.assignWindows] at mem
    split at mem
    · obtain rfl := mem_singleton.1 mem
      have bound := lt_windowStart_add ts s.slide_pos s.offset
      rw [fits] at bound
      have narrow : s.slide ≤ s.size := proper
      exact Int.lt_of_lt_of_le bound (Int.add_le_add_left narrow _)
    · rcases mem_append.1 mem with back | ahead
      · exact ((s.backwards_spec ts _ _).1 win back).2
      · exact ((s.forwards_spec ts _ _).1 win ahead).2

theorem assignWindows_nodup (assigner : WindowAssigner)
    (ts : Time) : (assigner.assignWindows ts).Nodup := by
  cases assigner with
  | tumbling t | session s => exact pairwise_singleton _ _
  | sliding s =>
    have slide : (0 : Int) < s.slide := s.slide_pos
    simp only [assignWindows, Sliding.assignWindows]
    split
    · exact pairwise_singleton _ _
    · obtain ⟨back, decreasing⟩ := s.backwards_spec ts
        ((windowStart ts s.slide s.offset + s.size - ts) / s.slide + 1).toNat
        (windowStart ts s.slide s.offset)
      obtain ⟨ahead, increasing⟩ := s.forwards_spec ts
        ((ts + s.size - windowStart ts s.slide s.offset) / s.slide + 1).toNat
        (windowStart ts s.slide s.offset + s.slide)
      refine nodup_append.2 ⟨decreasing.imp fun less same => ?_,
        increasing.imp fun less same => ?_, fun a here b there same => ?_⟩
      · exact lt_irrefl _ (same ▸ less)
      · exact lt_irrefl _ (same ▸ less)
      · have early := (back a here).1
        have late := lt_of_lt_of_le
          (lt_add_of_pos_right (windowStart ts s.slide s.offset) slide) (ahead b there).1
        exact lt_irrefl _ (lt_of_lt_of_le late (same ▸ early))

end WindowAssigner

/-! ## Tumbling windows -/

/-- `WindowStart` with the 64-bit arithmetic of the source. -/
def windowStart64 (ts : Time) (size offset : Duration) : Time :=
  let aligned := int64 (ts.unixNano - offset)
  int64 (int64 (aligned.tdiv size * size) + offset)

/-- `s` is the last aligned instant that is not after `ts`. -/
structure IsFloor (ts size offset s : Int) : Prop where
  aligned : s ≡ offset [ZMOD size]
  early : s ≤ ts
  late : ts < s + size

variable {ts size offset s : Int}

theorem IsFloor.unique {other : Int} (first : IsFloor ts size offset s)
    (second : IsFloor ts size offset other) : other = s := by
  obtain ⟨aligned, early, late⟩ := first
  obtain ⟨aligned', early', late'⟩ := second
  have apart := modEq_iff_dvd.1 (aligned.trans aligned'.symm)
  exact sub_eq_zero.1 (eq_zero_of_abs_lt_dvd apart (abs_lt.2 ⟨by omega, by omega⟩))

/-- Truncation goes towards zero. -/
theorem tdiv_mul_between (positive : 0 < size) (a : Int) :
    (0 ≤ a → 0 ≤ a.tdiv size * size ∧ a.tdiv size * size ≤ a) ∧
      (a ≤ 0 → a ≤ a.tdiv size * size ∧ a.tdiv size * size ≤ 0) := by
  have ahead : ∀ a : Int, 0 ≤ a → 0 ≤ a.tdiv size * size ∧ a.tdiv size * size ≤ a :=
    fun a nonneg => by
    rw [tdiv_eq_ediv_of_nonneg nonneg]
    exact ⟨Int.mul_nonneg (Int.ediv_nonneg nonneg positive.le) positive.le,
      Int.ediv_mul_le a positive.ne'⟩
  refine ⟨ahead a, fun nonpos => ?_⟩
  have mirrored := ahead (-a) (by omega)
  rw [Int.neg_tdiv, Int.neg_mul] at mirrored
  omega

theorem windowStart64_eq (positive : 0 < size) (fits : Time.unixNano ts = ts)
    (inside : int64 offset = offset) (difference : int64 (ts - offset) = ts - offset) :
    windowStart64 ts size offset = windowStart ts size offset := by
  have bounds : ∀ n : Int, int64 n = n → -2 ^ 63 ≤ n ∧ n < 2 ^ 63 := fun n same => by
    have low : -(2 ^ 64 / 2 : Int) ≤ bmod n (2 ^ 64) := le_bmod (by decide)
    have high : bmod n (2 ^ 64) < (2 ^ 64 + 1) / 2 := bmod_lt (by decide)
    rw [int64] at same
    omega
  have stamp := bounds ts fits
  have shift := bounds offset inside
  have apart := bounds _ difference
  obtain ⟨ahead, behind⟩ := tdiv_mul_between positive (ts - offset)
  have near : int64 ((ts - offset).tdiv size * size) = (ts - offset).tdiv size * size := by
    apply int64_of_bounds <;> omega
  simp only [windowStart64, windowStart, fits, difference, near]
  apply int64_of_bounds <;> omega

theorem isFloor_windowStart_iff (positive : 0 < size) (fits : Time.unixNano ts = ts) :
    IsFloor ts size offset (windowStart ts size offset) ↔ offset ≤ ts ∨ size ∣ ts - offset := by
  obtain ⟨ahead, behind⟩ := tdiv_mul_between positive (ts - offset)
  have start : windowStart ts size offset = (ts - offset).tdiv size * size + offset := by
    rw [windowStart, fits]
  have late := lt_windowStart_add ts positive offset
  rw [fits] at late
  constructor
  · rintro ⟨-, early, -⟩
    rw [start] at early
    refine (le_total offset ts).imp_right fun before => ?_
    exact ⟨(ts - offset).tdiv size, by rw [mul_comm]; omega⟩
  · intro right
    refine ⟨modEq_iff_dvd.2 ⟨-(ts - offset).tdiv size, by rw [start]; ring⟩, ?_, late⟩
    rw [start]
    rcases right with after | whole
    · omega
    · rw [Int.tdiv_mul_cancel whole]
      omega

/-- `WindowStart` returns the one floor of an instant, and the tumbling window contains it. -/
def Tumbling.Floors (t : Tumbling) (ts : Int) : Prop :=
  (∀ s, IsFloor ts t.size t.offset s ↔ s = windowStart64 ts t.size t.offset) ∧
    ∃ win, t.assignWindows ts = [win] ∧ win.start = windowStart64 ts t.size t.offset ∧
      win.start ≤ ts ∧ ts < win.stop

/-- `WindowStart` floors a timestamp if its distance from the offset fits 64 bits and it is not
before the offset or is aligned itself. As long as the distance fits, it floors no other one. -/
theorem tumbling_floor_iff (t : Tumbling) {ts : Int} (fits : Time.unixNano ts = ts)
    (inside : int64 t.offset = t.offset) :
    (int64 (ts - t.offset) = ts - t.offset ∧ (t.offset ≤ ts ∨ t.size ∣ ts - t.offset) →
      t.Floors ts) ∧
      (int64 (ts - t.offset) = ts - t.offset → t.Floors ts → t.offset ≤ ts ∨
        t.size ∣ ts - t.offset) := by
  refine ⟨fun ⟨difference, right⟩ => ?_, fun difference floors => ?_⟩
  · have floor := (isFloor_windowStart_iff t.size_pos fits).2 right
    rw [Tumbling.Floors, windowStart64_eq t.size_pos fits inside difference]
    exact ⟨fun s => ⟨floor.unique, fun same => same ▸ floor⟩, _, rfl, rfl, floor.early, floor.late⟩
  · rw [Tumbling.Floors, windowStart64_eq t.size_pos fits inside difference] at floors
    exact (isFloor_windowStart_iff t.size_pos fits).1 ((floors.1 _).2 rfl)

/-- Windows of five at an instant before the epoch that is aligned. -/
theorem aligned_before_epoch : (Tumbling.mk 5 0 (by decide)).Floors (-10) :=
  (tumbling_floor_iff ⟨5, 0, by decide⟩ (by decide) (by decide)).1 ⟨by decide, .inr (by decide)⟩

/-- The window assigned to an instant before the epoch starts after it, and one whose distance from
the offset does not fit starts long before it. -/
theorem before_epoch_outside : ¬(Tumbling.mk 5 0 (by decide)).Floors (-1) ∧
    ¬(Tumbling.mk 5 (-5) (by decide)).Floors (2 ^ 63 - 1) := by
  constructor
  · exact fun floors => absurd ((floors.1 _).2 rfl).early (by decide)
  · exact fun floors => absurd ((floors.1 _).2 rfl).late (by decide)

/-- The windows of one minute that slide by twenty seconds and contain an instant. -/
example : (Sliding.mk 60 20 0 (by decide) (by decide)).assignWindows 75 =
    [⟨60, 120⟩, ⟨40, 100⟩, ⟨20, 80⟩] := by decide

end Weibo
