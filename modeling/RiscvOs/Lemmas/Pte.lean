import RiscvOs.Lib.Radix
import RiscvOs.Malloc

/-!
# Page-table entries

The bit operations on addresses and entries, as arithmetic. An entry written for a page-aligned frame
below `2 ^ 56` with flags in its low ten bits decodes to this frame and these flags.
-/

namespace RiscvOs

open ByteMem

@[simp] theorem px_val (level va : Nat) : (px level va : Nat) = va / 2 ^ (12 + 9 * level) % 512 := by
  simp only [px, Nat.shiftRight_eq_div_pow]
  exact Nat.and_two_pow_sub_one_eq_mod _ 9

theorem pte2pa_eq (pte : Nat) : pte2pa pte = pte / 1024 * 4096 % 2 ^ 64 := by
  simp only [pte2pa, Nat.shiftRight_eq_div_pow, Nat.shiftLeft_eq]

theorem pte2pa_aligned (pte : Nat) : pte2pa pte % 4096 = 0 := by
  rw [pte2pa_eq]
  omega

theorem pteHas_mod (pte mask : Nat) (h : mask < 1024) : pteHas pte mask = pteHas (pte % 1024) mask := by
  have hm : mask = 1023 &&& mask := by
    rw [Nat.and_comm, Nat.and_two_pow_sub_one_eq_mod mask 10, Nat.mod_eq_of_lt h]
  have : pte &&& mask = pte % 1024 &&& mask := by
    rw [← Nat.and_two_pow_sub_one_eq_mod pte 10, Nat.and_assoc, ← hm]
  rw [pteHas, pteHas, this]

theorem pteHas_V (pte : Nat) : pteHas pte pteV = decide (pte % 2 = 1) := by
  have : pte &&& 1 = pte % 2 := Nat.and_two_pow_sub_one_eq_mod pte 1
  simp only [pteHas, pteV, this]
  rcases Nat.mod_two_eq_zero_or_one pte with h | h <;> simp [h]

@[simp] theorem pteHas_zero (mask : Nat) : pteHas 0 mask = false := by
  simp [pteHas]

theorem pa2pte_eq {pa flags : Nat} (hf : flags < 1024) : pa2pte pa flags = pa / 4096 * 1024 + flags := by
  rw [pa2pte, ← Nat.shiftLeft_add_eq_or_of_lt (i := 10) hf, Nat.shiftLeft_eq, Nat.shiftRight_eq_div_pow]

theorem or_pteV_lt {flags : Nat} (hf : flags < 1024) : flags ||| pteV < 1024 :=
  Nat.or_lt_two_pow (n := 10) hf (by decide)

theorem pa2pte_or {pa flags : Nat} : pa2pte pa flags ||| pteV = pa2pte pa (flags ||| pteV) := by
  rw [pa2pte, pa2pte, Nat.or_assoc]

section Encode

variable {pa flags : Nat} (hpa : pa % 4096 = 0) (hlt : pa < 2 ^ 56) (hf : flags < 1024)
include hpa hlt hf

theorem pte2pa_pa2pte : pte2pa (pa2pte pa flags) = pa := by
  rw [pa2pte_eq hf, pte2pa_eq]
  omega

omit hpa hlt in
theorem pteHas_pa2pte {mask : Nat} (hm : mask < 1024) :
    pteHas (pa2pte pa flags) mask = pteHas flags mask := by
  rw [pteHas_mod _ _ hm, pa2pte_eq hf]
  congr 1
  omega

omit hpa in
theorem pa2pte_lt : pa2pte pa flags < 2 ^ 64 := by
  rw [pa2pte_eq hf]
  omega

end Encode

theorem pteHas_or_pteV (flags : Nat) : pteHas (flags ||| pteV) pteV = true := by
  simp only [pteHas, bne_iff_ne, ne_eq, pteV]
  intro h
  have := congrArg (Nat.testBit · 0) h
  simp at this

theorem pteHas_or_pteV_of_even (flags : Nat) {mask : Nat} (hm : mask &&& 1 = 0) :
    pteHas (flags ||| pteV) mask = pteHas flags mask := by
  have : (flags ||| pteV) &&& mask = flags &&& mask := by
    rw [Nat.and_or_distrib_right, pteV, Nat.and_comm 1 mask, hm, Nat.or_zero]
  rw [pteHas, pteHas, this]

/-! ## Entries as links of a radix tree -/

/-- The next table of an entry on the upper levels. -/
def pteNext (pte : Nat) : Option Nat := if pteHas pte pteV then some (pte2pa pte) else none

/-- The user's frame of an entry on the lowest level. -/
def userFrame (pte : Nat) : Option Nat :=
  if pteHas pte pteV && pteHas pte pteU then some (pte2pa pte) else none

@[simp] theorem pteNext_zero : pteNext 0 = none := by simp [pteNext]

@[simp] theorem userFrame_zero : userFrame 0 = none := by simp [userFrame]

theorem pteNext_aligned {pte pg : Nat} (h : pteNext pte = some pg) : pg % 4096 = 0 := by
  rw [pteNext, Option.ite_none_right_eq_some, Option.some.injEq] at h
  exact h.2 ▸ pte2pa_aligned pte

/-- The frame of an entry for a page of the user. -/
theorem pte2pa_of_userFrame {pte pg : Nat} (h : userFrame pte = some pg) : pte2pa pte = pg := by
  rw [userFrame, Option.ite_none_right_eq_some, Option.some.injEq] at h
  exact h.2

theorem userFrame_aligned {pte pg : Nat} (h : userFrame pte = some pg) : pg % 4096 = 0 :=
  pte2pa_of_userFrame h ▸ pte2pa_aligned pte

theorem pteNext_lt {pte pg : Nat} (h : pteNext pte = some pg) : pg < 2 ^ 64 := by
  rw [pteNext, Option.ite_none_right_eq_some, Option.some.injEq] at h
  exact h.2 ▸ Nat.mod_lt _ (by decide)

theorem userFrame_lt {pte pg : Nat} (h : userFrame pte = some pg) : pg < 2 ^ 64 :=
  pte2pa_of_userFrame h ▸ Nat.mod_lt _ (by decide)

/-- An entry is stored in its word of the table. -/
theorem pteAt_setPte_self {m : Mem} {pt pte : Nat} {i : Fin 512} (h : pte < 2 ^ 64) :
    pteAt (setPte m pt i pte) pt i = pte := load64_store64_of_lt h

theorem pteAt_setPte_ne {m : Mem} {pt pt' pte : Nat} {i j : Fin 512}
    (h : pt' + 8 * j + 8 ≤ pt + 8 * i ∨ pt + 8 * i + 8 ≤ pt' + 8 * j) :
    pteAt (setPte m pt i pte) pt' j = pteAt m pt' j := load64_store64_outside h

/-- A store to one entry leaves the other entries of all page-aligned tables alone. -/
theorem pteAt_setPte_other {m : Mem} {pt pt' pte : Nat} {i j : Fin 512} (ha : pt % 4096 = 0)
    (ha' : pt' % 4096 = 0) (h : pt' = pt → j ≠ i) :
    pteAt (setPte m pt i pte) pt' j = pteAt m pt' j := by
  apply pteAt_setPte_ne
  have := i.isLt
  have := j.isLt
  by_cases he : pt' = pt
  · have : (j : Nat) ≠ i := fun hj => h he (Fin.ext hj)
    omega
  · omega

theorem pteAt_congr {m m' : Mem} {pt : Nat} {i : Fin 512}
    (h : ∀ x, pt ≤ x → x < pt + 4096 → m' x = m x) : pteAt m' pt i = pteAt m pt i := by
  have := i.isLt
  exact load64_congr fun x h1 h2 => h x (by omega) (by omega)

end RiscvOs
