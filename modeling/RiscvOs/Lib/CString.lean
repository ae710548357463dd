import RiscvOs.Lib.ByteMem

/-!
# Strings in memory

A string is a list of bytes without a 0, with a 0 behind it in memory. The loops of a C library that look at
one byte after the other are given with a bound on their rounds.
-/

namespace CString

open ByteMem

/-- The string `s` lies at `a`. -/
def StrAt (m : Mem) : Nat → List UInt8 → Prop
  | a, [] => m a = 0
  | a, c :: s => m a = c ∧ c ≠ 0 ∧ StrAt m (a + 1) s

/-- The first address from `a` on whose byte is not in `p`, `n` bytes further on at most. -/
def scan (m : Mem) (p : UInt8 → Bool) : Nat → Nat → Nat
  | 0, a => a
  | n + 1, a => if p (m a) then scan m p n (a + 1) else a

/-- The bytes from `a` on before the first 0, `n` at most. -/
def strOf (m : Mem) : Nat → Nat → List UInt8
  | 0, _ => []
  | n + 1, a => if m a = 0 then [] else m a :: strOf m n (a + 1)

/-- The string at `a` is `t`. -/
def eqAt (m : Mem) : Nat → List UInt8 → Bool
  | a, [] => m a == 0
  | a, c :: t => m a == c && eqAt m (a + 1) t

variable {m m' : Mem} {a n : Nat} {c : UInt8} {s t : List UInt8} {p : UInt8 → Bool}

@[simp] theorem strAt_nil : StrAt m a [] ↔ m a = 0 := Iff.rfl

@[simp] theorem strAt_cons : StrAt m a (c :: s) ↔ m a = c ∧ c ≠ 0 ∧ StrAt m (a + 1) s := Iff.rfl

theorem StrAt.congr (h : StrAt m a s) (hm : ∀ x, a ≤ x → x ≤ a + s.length → m' x = m x) : StrAt m' a s := by
  induction s generalizing a with
  | nil => exact (hm a (Nat.le_refl _) (Nat.le_refl _)).trans h
  | cons c s ih =>
      obtain ⟨hc, h0, hs⟩ := h
      refine ⟨(hm a (Nat.le_refl _) (Nat.le_add_right _ _)).trans hc, h0, ih hs fun x h1 h2 => ?_⟩
      exact hm x (by omega) (by rw [List.length_cons]; omega)

/-- The rest of a string. -/
theorem StrAt.drop (h : StrAt m a (s ++ t)) : StrAt m (a + s.length) t := by
  induction s generalizing a with
  | nil => exact h
  | cons c s ih =>
      have := ih h.2.2
      rwa [Nat.add_right_comm, Nat.add_assoc] at this

/-- The string ends where a 0 is put into it. -/
theorem StrAt.cut (h : StrAt m a (s ++ t)) : StrAt (Function.update m (a + s.length) 0) a s := by
  induction s generalizing a with
  | nil => exact Function.update_self _ _ _
  | cons c s ih =>
      obtain ⟨hc, h0, hs⟩ := h
      refine ⟨?_, h0, ?_⟩
      · rw [Function.update_of_ne (by rw [List.length_cons]; omega)]
        exact hc
      · have := ih hs
        rwa [Nat.add_assoc, Nat.add_comm 1] at this

/-- Behind the bytes of a string lies a 0. -/
theorem StrAt.last (h : StrAt m a s) : m (a + s.length) = 0 := by
  rw [← List.append_nil s] at h
  exact h.drop

/-- The string of bytes of which some may be 0. -/
theorem StrAt.of_bytes {l : List UInt8} (hl : ∀ i < l.length, m (a + i) = l.getD i 0)
    (h0 : m (a + l.length) = 0) : StrAt m a (l.takeWhile (· != 0)) := by
  induction l generalizing a with
  | nil => exact h0
  | cons c l ih =>
      have hc : m a = c := hl 0 (by simp)
      by_cases hz : c = 0
      · rw [List.takeWhile_cons_of_neg (by simpa using hz)]
        exact hc.trans hz
      · rw [List.takeWhile_cons_of_pos (by simpa using hz)]
        refine ⟨hc, hz, ih (fun i hi => ?_) ?_⟩
        · rw [Nat.add_assoc, Nat.add_comm 1, hl (i + 1) (by simpa using hi), List.getD_cons_succ]
        · rwa [List.length_cons, Nat.add_comm l.length, ← Nat.add_assoc] at h0

theorem scan_eq (h : StrAt m a s) (hn : s.length ≤ n) (h0 : p 0 = false) :
    scan m p n a = a + (s.takeWhile p).length := by
  induction s generalizing a n with
  | nil =>
      cases n with
      | zero => rfl
      | succ n => simp [scan, strAt_nil.mp h, h0]
  | cons c s ih =>
      obtain ⟨hc, -, hs⟩ := h
      obtain ⟨n, rfl⟩ := Nat.exists_eq_succ_of_ne_zero (Nat.ne_zero_of_lt hn)
      by_cases hp : p c
      · rw [List.takeWhile_cons_of_pos hp, scan, hc, if_pos hp, ih hs (by simpa using hn), List.length_cons]
        omega
      · rw [List.takeWhile_cons_of_neg hp, scan, hc, if_neg hp]
        rfl

theorem strOf_eq (h : StrAt m a s) (hn : s.length ≤ n) : strOf m n a = s := by
  induction s generalizing a n with
  | nil =>
      cases n with
      | zero => rfl
      | succ n => exact if_pos h
  | cons c s ih =>
      obtain ⟨hc, h0, hs⟩ := h
      obtain ⟨n, rfl⟩ := Nat.exists_eq_succ_of_ne_zero (Nat.ne_zero_of_lt hn)
      rw [strOf, hc, if_neg h0, ih hs (by simpa using hn)]

/-- There is one string at an address. -/
theorem StrAt.unique (h : StrAt m a s) (h' : StrAt m a t) : s = t := by
  rw [← strOf_eq h (Nat.le_max_left s.length t.length), strOf_eq h' (Nat.le_max_right ..)]

theorem eqAt_iff (h : StrAt m a s) (ht : 0 ∉ t) : eqAt m a t = true ↔ s = t := by
  induction t generalizing a s with
  | nil =>
      cases s with
      | nil => simpa [eqAt] using h
      | cons c s =>
          obtain ⟨hc, h0, -⟩ := h
          simp [eqAt, hc, h0]
  | cons d t ih =>
      have hd : d ≠ 0 := fun he => ht (by simp [he])
      cases s with
      | nil => simp [eqAt, strAt_nil.mp h, hd.symm]
      | cons c s =>
          obtain ⟨hc, -, hs⟩ := h
          rw [eqAt, hc, Bool.and_eq_true, beq_iff_eq, ih hs fun h => ht (by simp [h]), List.cons.injEq]

end CString
