import Weibo.Operator.ReduceRuns

/-!
# Texts of window keys

The text of a window key ends in two instants, which no slash can be part of, so the last two
slashes of the text separate its parts whatever the record's key is. `parseWindowKey` finds them
with two cursors.
-/

namespace Weibo

open List Option AList

section Parse

/-- The loop of `parseWindowKey` over the bytes in front of `i`: the last slash and the one before
it. -/
def scanSlashes (s : Bytes) : (i : Nat) → (lastSlash : Option Nat) → Option Nat × Option Nat
  | 0, lastSlash => (lastSlash, none)
  | i + 1, none => if s[i]? = some slash then scanSlashes s i (some i) else scanSlashes s i none
  | i + 1, some last =>
    if s[i]? = some slash then (some last, some i) else scanSlashes s i (some last)

def parseWindowKey [TimeText] (s : Bytes) : WindowKey :=
  match scanSlashes s s.length none with
  | (some last, some second) =>
    let start := (TimeText.parse ((s.take last).drop (second + 1))).getD Time.zero
    let stop := (TimeText.parse (s.drop (last + 1))).getD Time.zero
    ⟨s.take second, start.unixNano, stop.unixNano⟩
  | _ => ⟨[], 0, 0⟩

variable {s : Bytes}

theorem scanSlashes_skip {low high : Nat} (order : low ≤ high)
    (absent : ∀ i, low ≤ i → i < high → s[i]? ≠ some slash) (lastSlash : Option Nat) :
    scanSlashes s high lastSlash = scanSlashes s low lastSlash := by
  induction high, order using Nat.le_induction with
  | base => rfl
  | succ high order ih =>
    rw [← ih fun i above below => absent i above (by omega)]
    cases lastSlash <;> rw [scanSlashes, if_neg (absent high order (by omega))]

/-- The two slashes are found behind an arbitrary front. -/
theorem scanSlashes_eq {front first last : Bytes} (whole :
    s = front ++ slash :: (first ++ slash :: last)) (plain : slash ∉ first) (mem' : slash ∉ last) :
    scanSlashes s s.length none = (some (front.length + 1 + first.length), some front.length) := by
  have size : s.length = front.length + 1 + first.length + 1 + last.length := by simp [whole]; omega
  have behind :
    ∀ i, front.length + 1 + first.length + 1 ≤ i → i < s.length → s[i]? ≠ some slash := by
    intro i above _ here
    rw [whole, List.getElem?_append_right (by omega),
      ← Nat.sub_add_cancel (show 1 ≤ i - front.length by omega),
      List.getElem?_cons_succ, List.getElem?_append_right (by omega),
      ← Nat.sub_add_cancel (show 1 ≤ i - front.length - 1 - first.length by omega),
        List.getElem?_cons_succ] at here
    exact mem' (mem_of_getElem? here)
  have between :
    ∀ i, front.length + 1 ≤ i → i < front.length + 1 + first.length → s[i]? ≠ some slash := by
    intro i above below here
    rw [whole, List.getElem?_append_right (by omega),
      ← Nat.sub_add_cancel (show 1 ≤ i - front.length by omega),
      List.getElem?_cons_succ, List.getElem?_append_left (by omega)] at here
    exact plain (mem_of_getElem? here)
  have final : s[front.length + 1 + first.length]? = some slash := by
    rw [whole, List.getElem?_append_right (by omega),
      show front.length + 1 + first.length - front.length = first.length + 1 by omega]
    simp
  have second : s[front.length]? = some slash := by simp [whole]
  rw [scanSlashes_skip (by omega) behind, scanSlashes, if_pos final,
    scanSlashes_skip (by omega) between,
    scanSlashes, if_pos second]

end Parse

section Texts

variable [TimeText]

/-- `parseWindowKey` reads a window key back from its text, so no two keys with windows share a
text. -/
theorem parseWindowKey_text (texts : TimeText.Exact) :
    (∀ wk : WindowKey, wk.Fits → parseWindowKey wk.text = wk) ∧
      (∀ wk other : WindowKey, wk.Fits → other.Fits → wk.text = other.text → wk = other) ∧
      ∀ (key key' : Bytes) (win win' : Window), (WindowKey.mk key win.start win.stop).Fits →
        (WindowKey.mk key' win'.start win'.stop).Fits →
        (toWindowKey key win).text = (toWindowKey key' win').text → key = key' ∧ win = win' := by
  have reads : ∀ wk : WindowKey, wk.Fits → parseWindowKey wk.text = wk := by
    intro wk fits
    have whole : wk.text = wk.key ++ slash ::
      (TimeText.format wk.start ++ slash :: TimeText.format wk.stop) := by
      simp [WindowKey.text]
    have front : (wk.text.take (wk.key.length + 1 + (TimeText.format wk.start).length)).drop
      (wk.key.length + 1) =
        TimeText.format wk.start := by
      rw [whole, drop_take, ← drop_drop]
      simp
    have back : wk.text.drop (wk.key.length + 1 + (TimeText.format wk.start).length + 1) =
        TimeText.format wk.stop := by
      rw [whole, ← drop_drop, ← drop_drop, ← drop_drop]
      simp
    have key : wk.text.take wk.key.length = wk.key := by simp [whole]
    simp only [parseWindowKey, scanSlashes_eq whole (texts.plain _ fits.1) (texts.plain _ fits.2),
      front, back, key,
      texts.reads _ fits.1, texts.reads _ fits.2, getD_some, fits.1, fits.2]
  refine ⟨reads, fun _ _ => WindowKey.text_injective texts,
    fun key key' win win' fits fits' same => ?_⟩
  have fixed : toWindowKey key win = ⟨key, win.start, win.stop⟩ := by
    simp only [toWindowKey, fits.1, fits.2]
  have whole' : toWindowKey key' win' = ⟨key', win'.start, win'.stop⟩ := by
    simp only [toWindowKey, fits'.1, fits'.2]
  obtain ⟨keys, starts, stops⟩ :=
    WindowKey.mk.inj (WindowKey.text_injective texts fits fits' (fixed ▸ whole' ▸ same))
  cases win
  cases win'
  exact ⟨keys, by rw [Window.mk.injEq]; exact ⟨starts, stops⟩⟩

omit [TimeText] in
/-- A key that looks like the text of a window key. -/
theorem parseWindowKey_slashes : @parseWindowKey unaryTimeText
    (@WindowKey.text unaryTimeText ⟨[47, 1, 47, 1], 3, 4⟩) = ⟨[47, 1, 47, 1], 3, 4⟩ :=
  (@parseWindowKey_text unaryTimeText unaryTimeText_exact).1 _ ⟨by decide, by decide⟩

end Texts

end Weibo
