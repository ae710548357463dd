import RiscvOs.Lib.ByteMem

/-!
# Bounded output

Bytes go one after the other to the buffer at `buf`, as long as the cursor is below a limit. What comes out
is a beginning of what is put in, whatever the limit.
-/

open ByteMem

/-- Memory, and the index in the buffer where the next byte goes. -/
structure Sink where
  mem : Mem
  i : Nat

namespace Sink

variable {buf lim a : Nat} {o : Sink} {l l' : List UInt8} {c : UInt8}

/-- `buf[i++] = c`. -/
def put (buf : Nat) (o : Sink) (c : UInt8) : Sink := ⟨Function.update o.mem (buf + o.i) c, o.i + 1⟩

/-- The bytes of `l`, as far as there is room. -/
def emit (buf lim : Nat) (o : Sink) : List UInt8 → Sink
  | [] => o
  | c :: l => if o.i < lim then (o.put buf c).emit buf lim l else o

theorem emit_of_full (h : ¬o.i < lim) : o.emit buf lim l = o := by
  cases l with
  | nil => rfl
  | cons c l => exact if_neg h

theorem emit_cons (h : o.i < lim) : o.emit buf lim (c :: l) = (o.put buf c).emit buf lim l := if_pos h

theorem emit_append : o.emit buf lim (l ++ l') = (o.emit buf lim l).emit buf lim l' := by
  induction l generalizing o with
  | nil => rfl
  | cons c l ih =>
      by_cases h : o.i < lim
      · rw [List.cons_append, emit_cons h, emit_cons h, ih]
      · rw [emit_of_full h, emit_of_full h, emit_of_full h]

/-- Where the cursor ends. -/
theorem emit_i (h : o.i ≤ lim) : (o.emit buf lim l).i = min lim (o.i + l.length) := by
  induction l generalizing o with
  | nil => exact (Nat.min_eq_right h).symm
  | cons c l ih =>
      by_cases hlt : o.i < lim
      · rw [emit_cons hlt, ih (Nat.succ_le_of_lt hlt), List.length_cons]
        simp only [put]
        omega
      · rw [emit_of_full hlt]
        omega

/-- Nothing is written at or behind the limit, nor in front of the cursor. -/
theorem emit_outside (h : a < buf + o.i ∨ buf + lim ≤ a) : (o.emit buf lim l).mem a = o.mem a := by
  induction l generalizing o with
  | nil => rfl
  | cons c l ih =>
      by_cases hlt : o.i < lim
      · rw [emit_cons hlt, ih (by simp only [put]; omega)]
        exact Function.update_of_ne (by omega) ..
      · rw [emit_of_full hlt]

/-- The byte that comes out at index `o.i + j`. -/
theorem emit_inside {j : Nat} (hj : j < l.length) (h : o.i + j < lim) :
    (o.emit buf lim l).mem (buf + (o.i + j)) = l[j] := by
  induction l generalizing o j with
  | nil => cases hj
  | cons c l ih =>
      rw [emit_cons (by omega)]
      cases j with
      | zero =>
          rw [emit_outside (by simp only [put]; omega)]
          exact Function.update_self ..
      | succ j =>
          have hi : o.i + (j + 1) = (o.put buf c).i + j := by
            simp only [put]
            omega
          rw [hi]
          exact ih (Nat.lt_of_succ_lt_succ hj) (hi ▸ h)

end Sink
