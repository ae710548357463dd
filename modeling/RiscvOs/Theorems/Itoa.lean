import RiscvOs.Strings
import RiscvOs.Theorems.Formatters

/-!
# Numbers as strings

`itoa_unsigned` writes the numeral of a number in any base from 2 to 16, and `itoa_signed` that of an `int`.
-/

namespace RiscvOs

open ByteMem CString Numeral Outcome

variable {base : Nat} {buf : List UInt8}

/-- The call has written the string `s` at `str`, into 33 bytes, and nothing else. -/
structure Wrote (m : Mem) (str : Nat) (s : List UInt8) (m' : Mem) : Prop where
  at_str : StrAt m' str s
  room : s.length < 33
  frame : ∀ a, a < str ∨ str + s.length < a → m' a = m a

/-! ## The loop that turns the digits around -/

/-- The first `i` characters of `buf`, the last one first, with a 0 behind them. -/
theorem invert_eq {i : Nat} (h0 : 0 ∉ buf) (hi : i ≤ buf.length) (str : Nat) (m : Mem) :
    ∃ m', invert buf i str m = .ok (str + i, m') ∧
      StrAt (Function.update m' (str + i) 0) str (buf.take i).reverse ∧
      ∀ a, a < str ∨ str + i ≤ a → m' a = m a := by
  induction i generalizing str m with
  | zero => exact ⟨m, rfl, Function.update_self .., fun _ _ => rfl⟩
  | succ i ih =>
      have hlt : i < buf.length := hi
      have hne : buf[i] ≠ 0 := fun he => h0 (he ▸ List.getElem_mem hlt)
      obtain ⟨m', hm', hat, hframe⟩ := ih (Nat.le_of_lt hlt) (str + 1) (Function.update m str buf[i])
      have hend : str + 1 + i = str + (i + 1) := by omega
      rw [hend] at hm' hat
      refine ⟨m', ?_, ?_, fun a ha => ?_⟩
      · rw [invert, List.getElem?_eq_getElem hlt]
        exact hm'
      · rw [← List.take_concat_get' buf i hlt, List.reverse_append, List.reverse_singleton]
        refine ⟨?_, hne, hat⟩
        rw [Function.update_of_ne (by omega), hframe str (.inl (by omega)), Function.update_self]
      · rw [hframe a (by omega), Function.update_of_ne (by omega)]

/-! ## The two functions -/

theorem zero_not_mem_numeral (hb : 2 ≤ base) (hb' : base ≤ 16) (v : Nat) : 0 ∉ numeral base v := by
  intro h
  obtain ⟨d, hd, he⟩ := mem_numeral hb hb' 0 h
  exact (digit_ne hd).1 he.symm

/-- `itoa_unsigned` writes the numeral. -/
theorem itoaUnsignedTo_eq (hb : 2 ≤ base) (hb' : base ≤ 16) (w : BitVec 32) (str : Nat) (m : Mem) :
    ∃ m', itoaUnsignedTo w str base m = .ok m' ∧ Wrote m str (numeral base w.toNat) m' := by
  have hw : w.toNat < base ^ 32 := w.isLt.trans_le (Nat.pow_le_pow_left hb 32)
  have hlen : (numeral base w.toNat).length ≤ 32 := numeral_length hb (by decide) hw
  have h0 : 0 ∉ (numeral base w.toNat).reverse := by simpa using zero_not_mem_numeral hb hb' w.toNat
  obtain ⟨m', hm', hat, hframe⟩ := invert_eq h0 (Nat.le_refl _) str m
  rw [List.take_length, List.reverse_reverse] at hat
  rw [List.length_reverse] at hat hframe
  refine ⟨_, ?_, hat, by omega, fun a ha => ?_⟩
  · rw [itoaUnsignedTo, if_neg (by omega), itoaLoop_eq hb hb' hw, ok_bind, hm', ok_bind, List.length_reverse]
  · rw [Function.update_of_ne (by omega), hframe a (by omega)]

/-- The sign of an `int`. -/
def signText (w : BitVec 32) : List UInt8 := if w.toInt < 0 then [chr '-'] else []

theorem itoaSignedTo_eq (w : BitVec 32) (str : Nat) (m : Mem) :
    ∃ m', itoaSignedTo w str 10 m = .ok m' ∧ Wrote m str (signText w ++ numeral 10 w.toInt.natAbs) m' := by
  unfold itoaSignedTo
  rw [if_neg (by decide)]
  by_cases h : w.toInt < 0
  · obtain ⟨m', hm', hw⟩ := itoaUnsignedTo_eq (show 2 ≤ 10 by decide) (by decide) (-w) (str + 1)
      (Function.update m str (chr '-'))
    rw [neg_toNat h] at hw
    have habs : w.toInt.natAbs < 10 ^ 10 := by
      rw [← neg_toNat h]
      exact (-w).isLt.trans (by decide)
    have hlen := numeral_length (b := 10) (by decide) (by decide) habs
    rw [if_pos ⟨h, rfl⟩, signText, if_pos h]
    refine ⟨m', hm', ⟨?_, by decide, hw.at_str⟩, ?_, fun a ha => ?_⟩
    · rw [hw.frame str (.inl (by omega)), Function.update_self]
    · rw [List.length_append, List.length_singleton]
      omega
    · rw [List.length_append, List.length_singleton] at ha
      rw [hw.frame a (by omega), Function.update_of_ne (by omega)]
  · rw [if_neg fun hh => h hh.1, signText, if_neg h, List.nil_append, ← toNat_of_nonneg h]
    exact itoaUnsignedTo_eq (by decide) (by decide) w str m

/-- Every number is written in its usual form, in every base, and every `int` with its sign in front of its
magnitude. -/
theorem itoa_canonical (hb : 2 ≤ base) (hb' : base ≤ 16) (value : BitVec 32) (str : Nat) (m : Mem) :
    (∃ s m', itoaUnsignedTo value str base m = .ok m' ∧ Wrote m str s m' ∧ Canonical base value.toNat s) ∧
      ∃ s m', itoaSignedTo value str 10 m = .ok m' ∧ Wrote m str (signText value ++ s) m' ∧
        Canonical 10 value.toInt.natAbs s := by
  constructor
  · obtain ⟨m', h, hw⟩ := itoaUnsignedTo_eq hb hb' value str m
    exact ⟨_, m', h, hw, canonical_numeral hb hb'⟩
  · obtain ⟨m', h, hw⟩ := itoaSignedTo_eq value str m
    exact ⟨_, m', h, hw, canonical_numeral (by decide) (by decide)⟩

/-- The least `int`, in base 2. -/
theorem itoa_canonical_least : (∃ s m', itoaUnsignedTo 0x80000000 0 2 (fun _ => 0) = .ok m' ∧
    Wrote (fun _ => 0) 0 s m' ∧ Canonical 2 0x80000000 s) ∧
      ∃ s m', itoaSignedTo 0x80000000 0 10 (fun _ => 0) = .ok m' ∧ Wrote (fun _ => 0) 0 (chr '-' :: s) m' ∧
        Canonical 10 0x80000000 s :=
  itoa_canonical (by decide) (by decide) 0x80000000 0 fun _ => 0

end RiscvOs
