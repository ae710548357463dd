import Mathlib

/-!
# Consecutive blocks

Blocks of positive lengths, one behind the other. Every offset lies in exactly one of them; a loop that
subtracts one length after the other finds it.
-/

namespace Consecutive

variable {len : Nat → Nat} {n n' d r r' k : Nat}

/-- Where block `n` begins. -/
def start (len : Nat → Nat) (n : Nat) : Nat := ∑ i ∈ Finset.range n, len i

@[simp] theorem start_zero : start len 0 = 0 := rfl

theorem start_succ : start len (n + 1) = start len n + len n := Finset.sum_range_succ ..

theorem start_mono (len : Nat → Nat) (h : n ≤ k) : start len n ≤ start len k :=
  Finset.sum_le_sum_of_subset (Finset.range_subset_range.mpr h)

theorem mul_le_start (n : Nat) (h : ∀ i, r ≤ len i) : r * n ≤ start len n := by
  induction n with
  | zero => exact Nat.zero_le _
  | succ n ih =>
      have := h n
      rw [start_succ, Nat.mul_succ]
      omega

/-- Offset `d` is place `r` of block `n`. -/
structure At (len : Nat → Nat) (d n r : Nat) : Prop where
  eq : d = start len n + r
  lt : r < len n

namespace At

theorem le_of_at (h : At len d n r) (h' : At len d n' r') : n ≤ n' := by
  by_contra hlt
  have hmono := start_mono len (Nat.lt_of_not_le hlt)
  rw [start_succ] at hmono
  have := h.eq
  have := h'.eq
  have := h'.lt
  omega

/-- An offset has one place. -/
theorem unique (h : At len d n r) (h' : At len d n' r') : n = n' ∧ r = r' := by
  obtain rfl := Nat.le_antisymm (h.le_of_at h') (h'.le_of_at h)
  exact ⟨rfl, Nat.add_left_cancel (h.eq.symm.trans h'.eq)⟩

/-- As long as the block is not reached, the rest of the offset is not shorter than a block. -/
theorem len_le (h : At len (start len n + d) k r) (hn : n < k) : len n ≤ d := by
  have hmono := start_mono len hn
  rw [start_succ] at hmono
  have := h.eq
  omega

theorem rest (h : At len (start len n + d) n r) : d = r := Nat.add_left_cancel h.eq

end At

/-- Every offset has a place. -/
theorem exists_at (h : ∀ i, 0 < len i) (d : Nat) : ∃ n r, At len d n r := by
  induction d with
  | zero => exact ⟨0, 0, rfl, h 0⟩
  | succ d ih =>
      obtain ⟨n, r, heq, hlt⟩ := ih
      by_cases hr : r + 1 < len n
      · exact ⟨n, r + 1, by rw [heq, Nat.add_assoc], hr⟩
      · refine ⟨n + 1, 0, ?_, h _⟩
        rw [start_succ]
        omega

end Consecutive
