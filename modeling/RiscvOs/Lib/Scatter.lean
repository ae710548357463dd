import RiscvOs.Lib.ByteMem

/-!
# Bytes behind a map of addresses

A run of virtual addresses lies at the places `p va, p (va + 1), …` of memory. Where `p` takes no place twice, a
store to the run is read back byte by byte.
-/

namespace ByteMem

variable {p : Nat → Nat} {m : Mem} {va a j : Nat} {b : UInt8} {l : List UInt8}

/-- The bytes of `l` go to the addresses from `va` on. -/
def scatter (p : Nat → Nat) (m : Mem) (va : Nat) : List UInt8 → Mem
  | [] => m
  | b :: l => scatter p (Function.update m (p va) b) (va + 1) l

theorem scatter_outside (h : ∀ x, va ≤ x → x < va + l.length → p x ≠ a) : scatter p m va l a = m a := by
  induction l generalizing m va with
  | nil => rfl
  | cons b l ih =>
      rw [List.length_cons] at h
      rw [scatter, ih fun x h1 h2 => h x (by omega) (by omega)]
      exact Function.update_of_ne (h va (Nat.le_refl _) (by omega)).symm ..

theorem scatter_inside (hp : ∀ x y, va ≤ x → x < va + l.length → va ≤ y → y < va + l.length → p x = p y → x = y)
    (hj : j < l.length) : scatter p m va l (p (va + j)) = l[j] := by
  induction l generalizing m va j with
  | nil => cases hj
  | cons b l ih =>
      rw [List.length_cons] at hp hj
      rw [scatter]
      cases j with
      | zero =>
          rw [scatter_outside fun x h1 h2 he => by
            have := hp x va (by omega) (by omega) (Nat.le_refl _) (by omega) he
            omega]
          exact Function.update_self ..
      | succ j =>
          rw [← Nat.add_assoc, Nat.add_right_comm]
          exact ih (fun x y h1 h2 h3 h4 => hp x y (by omega) (by omega) (by omega) (by omega)) (by omega)

end ByteMem
