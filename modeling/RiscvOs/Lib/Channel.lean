import Mathlib

/-!
# A channel with one place

A place holds one message at most. Who keeps the history of the place finds that the messages are taken in
the order in which they were put there, each of them once.
-/

namespace Channel

/-- The messages that were put into the place, the oldest one first, and how many of them were taken. -/
structure History (α : Type*) where
  accepted : List α := []
  taken : Nat := 0

namespace History

variable {α : Type*} {h : History α} {a : α} {c : Option α}

def put (h : History α) (a : α) : History α := { h with accepted := h.accepted ++ [a] }

def take (h : History α) : History α := { h with taken := h.taken + 1 }

/-- The history belongs to a place with this contents: all other messages were taken. -/
structure Holds (h : History α) (c : Option α) : Prop where
  le : h.taken ≤ h.accepted.length
  waiting : h.accepted.drop h.taken = c.toList

theorem holds_nil : Holds ({} : History α) none := ⟨le_rfl, rfl⟩

/-- No message was lost: those that were not taken are still there. -/
theorem Holds.length (hh : Holds h c) : h.accepted.length = h.taken + c.toList.length := by
  have hlen := congrArg List.length hh.waiting
  rw [List.length_drop] at hlen
  have := hh.le
  omega

theorem Holds.put (hh : Holds h none) : Holds (h.put a) (some a) where
  le := by
    have := hh.le
    simp only [History.put, List.length_append]
    omega
  waiting := by
    have hw := hh.waiting
    simp only [History.put, List.drop_append_of_le_length hh.le, hw]
    rfl

/-- The message that is taken is the oldest one that was not taken before. -/
theorem Holds.next (hh : Holds h (some a)) : h.accepted[h.taken]? = some a := by
  have hw := congrArg List.head? hh.waiting
  rw [List.head?_drop] at hw
  exact hw

theorem Holds.take (hh : Holds h (some a)) : Holds h.take none where
  le := by
    have := hh.length
    simp only [Option.toList_some, List.length_singleton] at this
    simp only [History.take]
    omega
  waiting := by
    have := hh.length
    simp only [Option.toList_some, List.length_singleton] at this
    simp only [History.take, Option.toList_none, List.drop_eq_nil_iff]
    omega

end History

end Channel
