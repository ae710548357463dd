import Mathlib

/-!
# Byte-addressed memory

A memory is a total map from addresses to bytes. Words of 64 bits are stored in little-endian
order. The lemmas say what a store, a fill and a copy leave unchanged.
-/

namespace ByteMem

/-- Memory: one byte for each address. -/
abbrev Mem := Nat → UInt8

/-- Byte `i` of the little-endian form of `v`. -/
def byteOf (v i : Nat) : UInt8 := UInt8.ofNat (v / 256 ^ i)

/-- The 64-bit word at `a`. -/
def load64 (m : Mem) (a : Nat) : Nat :=
  (m a).toNat + 256 * ((m (a + 1)).toNat + 256 * ((m (a + 2)).toNat + 256 * ((m (a + 3)).toNat +
    256 * ((m (a + 4)).toNat + 256 * ((m (a + 5)).toNat + 256 * ((m (a + 6)).toNat +
      256 * (m (a + 7)).toNat))))))

/-- The bytes `f 0, …, f (n - 1)` are written from `a` on. -/
def write (m : Mem) (a n : Nat) (f : Nat → UInt8) : Mem :=
  fun x => if a ≤ x ∧ x < a + n then f (x - a) else m x

/-- The word `v` (modulo `2 ^ 64`) is stored at `a`. -/
def store64 (m : Mem) (a v : Nat) : Mem := write m a 8 (byteOf v)

/-- `n` bytes from `a` on are set to `c`. -/
def memset (m : Mem) (a : Nat) (c : UInt8) (n : Nat) : Mem := write m a n fun _ => c

/-- `n` bytes are copied from `src` to `dst`. -/
def memcpy (m : Mem) (dst src n : Nat) : Mem := write m dst n fun i => m (src + i)

/-! ## What a write changes -/

theorem write_inside {m : Mem} {a n x : Nat} {f : Nat → UInt8} (h : a ≤ x) (h' : x < a + n) :
    write m a n f x = f (x - a) := by
  simp [write, h, h']

theorem write_outside {m : Mem} {a n x : Nat} {f : Nat → UInt8} (h : ¬(a ≤ x ∧ x < a + n)) :
    write m a n f x = m x := by
  simp [write, h]

/-- The first byte goes before the others. -/
theorem write_update_first {m : Mem} {a n : Nat} {f : Nat → UInt8} :
    write (Function.update m a (f 0)) (a + 1) n (fun i => f (i + 1)) = write m a (n + 1) f := by
  funext x
  rcases Nat.lt_trichotomy x a with hlt | rfl | hgt
  · rw [write_outside (by omega), write_outside (by omega), Function.update_of_ne (by omega)]
  · rw [write_outside (by omega), write_inside (Nat.le_refl x) (by omega), Nat.sub_self, Function.update_self]
  · by_cases hx : x < a + (n + 1)
    · rw [write_inside (by omega) (by omega), write_inside (by omega) hx, show x - (a + 1) + 1 = x - a by omega]
    · rw [write_outside (by omega), write_outside (by omega), Function.update_of_ne (by omega)]

@[simp] theorem write_zero (m : Mem) (a : Nat) (f : Nat → UInt8) : write m a 0 f = m := by
  funext x
  exact write_outside (by omega)

theorem store64_outside {m : Mem} {a v x : Nat} (h : ¬(a ≤ x ∧ x < a + 8)) :
    store64 m a v x = m x := write_outside h

theorem memset_inside {m : Mem} {a n x : Nat} {c : UInt8} (h : a ≤ x) (h' : x < a + n) :
    memset m a c n x = c := write_inside h h'

theorem memset_outside {m : Mem} {a n x : Nat} {c : UInt8} (h : ¬(a ≤ x ∧ x < a + n)) :
    memset m a c n x = m x := write_outside h

theorem memcpy_inside {m : Mem} {dst src n x : Nat} (h : dst ≤ x) (h' : x < dst + n) :
    memcpy m dst src n x = m (src + (x - dst)) := write_inside h h'

theorem memcpy_outside {m : Mem} {dst src n x : Nat} (h : ¬(dst ≤ x ∧ x < dst + n)) :
    memcpy m dst src n x = m x := write_outside h

section Ranges

variable {α : Type} {l : List α} {m : Mem} {a n : α → Nat} {f : α → Nat → UInt8} {x : Nat} {p : α}

/-- Writes one after the other, none of which reaches `x`. -/
theorem foldl_write_outside (h : ∀ p ∈ l, ¬(a p ≤ x ∧ x < a p + n p)) :
    l.foldl (fun m p => write m (a p) (n p) (f p)) m x = m x := by
  induction l generalizing m with
  | nil => rfl
  | cons p l ih =>
      rw [List.foldl_cons, ih fun q hq => h q (List.mem_cons_of_mem p hq)]
      exact write_outside (h p List.mem_cons_self)

/-- Writes to ranges that are disjoint: the order does not matter. -/
theorem foldl_write_inside (hd : l.Pairwise fun p q => ¬((a p ≤ x ∧ x < a p + n p) ∧ a q ≤ x ∧ x < a q + n q))
    (hp : p ∈ l) (h : a p ≤ x) (h' : x < a p + n p) :
    l.foldl (fun m p => write m (a p) (n p) (f p)) m x = f p (x - a p) := by
  induction l generalizing m with
  | nil => cases hp
  | cons q l ih =>
      rw [List.pairwise_cons] at hd
      rw [List.foldl_cons]
      rcases List.mem_cons.mp hp with rfl | hp
      · rw [foldl_write_outside fun q hq hx => hd.1 q hq ⟨⟨h, h'⟩, hx⟩]
        exact write_inside h h'
      · exact ih hd.2 hp

/-- Writes that are shifted by `d` do there what they do without it. -/
theorem foldl_write_shift {m' : Mem} {d : Nat} (h : m (d + x) = m' x) :
    l.foldl (fun m p => write m (d + a p) (n p) (f p)) m (d + x) =
      l.foldl (fun m p => write m (a p) (n p) (f p)) m' x := by
  induction l generalizing m m' with
  | nil => exact h
  | cons p l ih =>
      rw [List.foldl_cons, List.foldl_cons]
      refine ih ?_
      by_cases hin : a p ≤ x ∧ x < a p + n p
      · rw [write_inside (by omega) (by omega), write_inside hin.1 hin.2, Nat.add_sub_add_left]
      · rw [write_outside (by omega), write_outside hin, h]

end Ranges

/-- A copy of a range onto itself changes nothing. -/
theorem memcpy_self (m : Mem) (a n : Nat) : memcpy m a a n = m := by
  funext x
  by_cases h : a ≤ x ∧ x < a + n
  · rw [memcpy_inside h.1 h.2]
    congr 1
    omega
  · exact memcpy_outside h

/-! ## Words -/

theorem load64_lt (m : Mem) (a : Nat) : load64 m a < 2 ^ 64 := by
  have hb (x : Nat) : (m x).toNat < 256 := (m x).toNat_lt
  have h0 := hb a; have h1 := hb (a + 1); have h2 := hb (a + 2); have h3 := hb (a + 3)
  have h4 := hb (a + 4); have h5 := hb (a + 5); have h6 := hb (a + 6); have h7 := hb (a + 7)
  unfold load64
  omega

/-- A word depends on its eight bytes only. -/
theorem load64_congr {m m' : Mem} {a : Nat} (h : ∀ x, a ≤ x → x < a + 8 → m' x = m x) :
    load64 m' a = load64 m a := by
  unfold load64
  rw [h a (by omega) (by omega), h (a + 1) (by omega) (by omega), h (a + 2) (by omega) (by omega),
    h (a + 3) (by omega) (by omega), h (a + 4) (by omega) (by omega),
    h (a + 5) (by omega) (by omega), h (a + 6) (by omega) (by omega),
    h (a + 7) (by omega) (by omega)]

/-- Words with the same bytes at two places. -/
theorem load64_eq {m m' : Mem} {a b : Nat} (h : ∀ x < 8, m' (a + x) = m (b + x)) :
    load64 m' a = load64 m b := by
  have h0 : m' a = m b := h 0 (by omega)
  unfold load64
  rw [h0, h 1 (by omega), h 2 (by omega), h 3 (by omega), h 4 (by omega), h 5 (by omega),
    h 6 (by omega), h 7 (by omega)]

theorem byteOf_toNat (v i : Nat) : (byteOf v i).toNat = v / 256 ^ i % 256 := by
  simp [byteOf]

theorem load64_store64 (m : Mem) (a v : Nat) : load64 (store64 m a v) a = v % 2 ^ 64 := by
  have hb (i : Nat) (hi : i < 8) : store64 m a v (a + i) = byteOf v i := by
    rw [store64, write_inside (by omega) (by omega), Nat.add_sub_cancel_left]
  unfold load64
  rw [show store64 m a v a = byteOf v 0 from hb 0 (by omega), hb 1 (by omega), hb 2 (by omega),
    hb 3 (by omega), hb 4 (by omega), hb 5 (by omega), hb 6 (by omega), hb 7 (by omega)]
  simp only [byteOf_toNat]
  omega

theorem load64_store64_of_lt {m : Mem} {a v : Nat} (h : v < 2 ^ 64) :
    load64 (store64 m a v) a = v := by
  rw [load64_store64, Nat.mod_eq_of_lt h]

theorem load64_write_outside {m : Mem} {a n b : Nat} {f : Nat → UInt8}
    (h : b + 8 ≤ a ∨ a + n ≤ b) : load64 (write m a n f) b = load64 m b :=
  load64_congr fun x h1 h2 => write_outside (by omega)

theorem load64_store64_outside {m : Mem} {a v b : Nat} (h : b + 8 ≤ a ∨ a + 8 ≤ b) :
    load64 (store64 m a v) b = load64 m b := load64_write_outside h

theorem load64_memset_zero {m : Mem} {a n b : Nat} (h : a ≤ b) (h' : b + 8 ≤ a + n) :
    load64 (memset m a 0 n) b = 0 := by
  have hb (i : Nat) (hi : i < 8) : memset m a 0 n (b + i) = 0 :=
    memset_inside (by omega) (by omega)
  unfold load64
  rw [show memset m a 0 n b = 0 from hb 0 (by omega), hb 1 (by omega), hb 2 (by omega),
    hb 3 (by omega), hb 4 (by omega), hb 5 (by omega), hb 6 (by omega), hb 7 (by omega)]
  rfl

end ByteMem
