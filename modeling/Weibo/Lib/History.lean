import Mathlib.Data.List.Basic

/-!
# Logs whose events have reasons

A log is described by what must stand in front of each event. `Justified` says so for every event at
once; it is preserved when an event is added whose reason is in the log already.
-/

namespace History

open List

variable {ε : Type}

def Justified (reason : List ε → ε → Prop) (log : List ε) : Prop :=
  ∀ front event back, log = front ++ event :: back → reason front event

variable {reason : List ε → ε → Prop} {log : List ε}

theorem justified_nil : Justified reason [] := by
  intro front event back empty
  simp at empty

theorem Justified.snoc (justified : Justified reason log) {event : ε} (here : reason log event) :
    Justified reason (log ++ [event]) := by
  intro front other back split
  rcases eq_nil_or_concat back with rfl | ⟨back, last, rfl⟩
  · obtain ⟨rfl, same⟩ := append_inj' split rfl
    obtain rfl := singleton_inj.1 same
    exact here
  · rw [concat_eq_append, ← cons_append, ← append_assoc] at split
    exact justified front other back (append_inj' split rfl).1

theorem filterMap_snoc {β : Type} (f : ε → Option β) (log : List ε) (event : ε) :
    (log ++ [event]).filterMap f = log.filterMap f ++ (f event).toList := by
  rw [filterMap_append]
  cases found : f event with
  | none | some b => simp [found]

end History
