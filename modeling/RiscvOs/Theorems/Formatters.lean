import RiscvOs.Theorems.Printf

/-!
# Two formatters

`kvnprintf` and `uart_printf` print the numerals of their arguments. For `%p` the former takes the low half of the
address only.
-/

namespace RiscvOs

open ByteMem CString Numeral

variable {base n k v buf size : Nat} {w : BitVec 32} {x : BitVec 64} {spec : UInt8} {text s : List UInt8} {m : Mem}

/-! ## `kvnprintf` -/

theorem digits_eq (h : v < 16) : digits.getD v 0 = digit v := by
  revert h v
  decide

theorem itoaLoop_eq (hb : 2 ≤ base) (hb' : base ≤ 16) (hv : v < base ^ k) :
    itoaLoop base (k + 1) v = .ok (numeral base v).reverse := by
  induction k generalizing v with
  | zero =>
      obtain rfl : v = 0 := Nat.lt_one_iff.mp hv
      rw [itoaLoop, Nat.zero_div, if_pos rfl, Nat.zero_mod, digits_eq (by decide)]
      rfl
  | succ k ih =>
      have hlt : v % base < 16 := (Nat.mod_lt v (by omega)).trans_le hb'
      rw [itoaLoop, digits_eq hlt]
      by_cases h : v < base
      · rw [Nat.div_eq_of_lt h, if_pos rfl, numeral_of_lt h, Nat.mod_eq_of_lt h]
        rfl
      · have hdiv : v / base ≠ 0 := Nat.div_ne_zero_iff.mpr ⟨by omega, by omega⟩
        have hsplit : numeral base v = numeral base (v / base) ++ [digit (v % base)] := numeral_of_le hb (by omega)
        rw [if_neg hdiv, ih (Nat.div_lt_of_lt_mul (by rwa [Nat.pow_succ'] at hv)), hsplit, List.reverse_append]
        rfl

theorem itoaUnsigned_eq (hb : 2 ≤ base) (hb' : base ≤ 16) (w : BitVec 32) :
    itoaUnsigned w base = .ok (numeral base w.toNat) := by
  have hw : w.toNat < base ^ 32 := w.isLt.trans_le (Nat.pow_le_pow_left hb 32)
  rw [itoaUnsigned, if_neg (by omega), itoaLoop_eq hb hb' hw, Outcome.ok_bind, List.reverse_reverse]

/-- The negation modulo `2 ^ 32` is the magnitude, also of the least `int`. -/
theorem neg_toNat (h : w.toInt < 0) : (-w).toNat = w.toInt.natAbs := by
  have hlt := w.isLt
  rw [BitVec.toInt_eq_toNat_cond] at *
  rw [BitVec.toNat_neg]
  split at h
  · omega
  · rw [if_neg (by assumption)]
    omega

theorem toNat_of_nonneg (h : ¬w.toInt < 0) : w.toNat = w.toInt.natAbs := by
  have hlt := w.isLt
  rw [BitVec.toInt_eq_toNat_cond] at *
  split at h
  · rw [if_pos (by assumption)]
    omega
  · omega

theorem itoaSigned_eq (w : BitVec 32) : itoaSigned w 10 = .ok (intNumeral 10 w.toInt) := by
  unfold itoaSigned intNumeral
  rw [if_neg (by decide)]
  by_cases h : w.toInt < 0
  · rw [if_pos ⟨h, rfl⟩, if_pos h, itoaUnsigned_eq (by decide) (by decide), neg_toNat h]
    rfl
  · rw [if_neg fun hh => h hh.1, if_neg h, itoaUnsigned_eq (by decide) (by decide), toNat_of_nonneg h]

/-- The text of a conversion of a number. -/
def kernelText (spec : UInt8) (x : BitVec 64) : List UInt8 :=
  if spec = chr 'd' then intNumeral 10 (x.setWidth 32).toInt
  else if spec = chr 'u' then numeral 10 (x.setWidth 32).toNat
  else if spec = chr 'x' then numeral 16 (x.setWidth 32).toNat
  else ascii "0x" ++ numeral 16 (x.setWidth 32).toNat

/-- The conversions of numbers. -/
def numberSpecs : List UInt8 := [chr 'd', chr 'u', chr 'x', chr 'p']

theorem kernelText_short (hs : spec ∈ numberSpecs) (x : BitVec 64) :
    (kernelText spec x).length ≤ 11 ∧ 0 ∉ kernelText spec x := by
  obtain ⟨d, hd, hdlen, hd0⟩ := itoaSigned_ten (x.setWidth 32)
  obtain ⟨u, hu, hulen, hu0⟩ := itoaUnsigned_ten (x.setWidth 32)
  obtain ⟨h, hh, hhlen, hh0⟩ := itoaUnsigned_sixteen (x.setWidth 32)
  cases (itoaSigned_eq (x.setWidth 32)).symm.trans hd
  cases (itoaUnsigned_eq (by decide) (by decide) (x.setWidth 32)).symm.trans hu
  cases (itoaUnsigned_eq (by decide) (by decide) (x.setWidth 32)).symm.trans hh
  have h0x : (ascii "0x").length = 2 ∧ 0 ∉ ascii "0x" := by decide
  simp only [numberSpecs, List.mem_cons, List.not_mem_nil, or_false] at hs
  rcases hs with rfl | rfl | rfl | rfl
  · exact ⟨hdlen, hd0⟩
  · exact ⟨Nat.le_succ_of_le hulen, hu0⟩
  · exact ⟨hhlen.trans (by decide), hh0⟩
  · refine ⟨?_, fun hm => ?_⟩
    · show (ascii "0x" ++ numeral 16 (x.setWidth 32).toNat).length ≤ 11
      rw [List.length_append]
      omega
    · exact (List.mem_append.mp hm).elim h0x.2 hh0

theorem kvnprintfLoop_number (hs : spec ∈ numberSpecs) (x : BitVec 64) (buf lim : Nat) (o : Sink) :
    kvnprintfLoop buf lim [chr '%', spec] o [.num x] = .ok (o.emit buf lim (kernelText spec x)) := by
  obtain ⟨hlen, h0⟩ := kernelText_short hs x
  have hpct : (0 : UInt8) ≠ chr '%' := by decide
  have hspec : spec ≠ 0 := by
    rintro rfl
    exact absurd hs (by decide)
  by_cases ho : o.i < lim
  · have hconv : convert buf lim o spec [.num x] = .ok (o.emit buf lim (kernelText spec x), []) := by
      simp only [numberSpecs, List.mem_cons, List.not_mem_nil, or_false] at hs
      rcases hs with rfl | rfl | rfl | rfl
      · exact putTmp_eq (itoaSigned_eq _) (by omega) h0
      · exact putTmp_eq (itoaUnsigned_eq (by decide) (by decide) _) (by omega) h0
      · exact putTmp_eq (itoaUnsigned_eq (by decide) (by decide) _) (by omega) h0
      · have htext : kernelText (chr 'p') x = [chr '0'] ++ ([chr 'x'] ++ numeral 16 (x.setWidth 32).toNat) := rfl
        rw [htext] at h0 hlen ⊢
        rw [Sink.emit_append, Sink.emit_append, ← put_eq ho, ← putIf_eq]
        exact putTmp_eq (itoaUnsigned_eq (by decide) (by decide) _)
          (by simp only [List.length_append, List.length_singleton] at hlen; omega) fun h =>
            h0 (List.mem_append_right _ (List.mem_append_right _ h))
    rw [kvnprintfLoop, if_neg (by simp [ho, hpct.symm]), if_pos ⟨rfl, hspec⟩, hconv, Outcome.ok_bind]
    rfl
  · rw [kvnprintfLoop, if_pos (.inr ho), Sink.emit_of_full ho]

/-- The text of `kvnprintf`, in a buffer of 32 bytes or more. -/
theorem kvnprintf_number (hs : spec ∈ numberSpecs) (x : BitVec 64) (buf : Nat) (m : Mem) (hsize : 32 ≤ size)
    (hsize' : size < 2 ^ 64) :
    ∃ i m', kvnprintf buf size [chr '%', spec] [.num x] m = .ok (i, m') ∧ StrAt m' buf (kernelText spec x) := by
  obtain ⟨hlen, h0⟩ := kernelText_short hs x
  obtain ⟨m', h, hin, hbytes⟩ :=
    kvnprintf_of_text buf m (by omega) hsize' fun buf lim o => kvnprintfLoop_number hs x buf lim o
  have hnul := hin.nul
  rw [Nat.min_eq_right (by omega)] at hnul
  have hat := StrAt.of_bytes (l := kernelText spec x)
    (fun i hi => by rw [hbytes i hi (by omega), List.getD_eq_getElem _ _ hi]) hnul
  rw [List.takeWhile_eq_self_iff.mpr fun c hc => by simpa using fun he : c = 0 => h0 (he ▸ hc)] at hat
  exact ⟨_, m', h, hat⟩

/-! ## `uart_printf` -/

theorem puthexLoop_eq (h0 : x ≠ 0) (hx : x.toNat < 16 ^ n) : puthexLoop n x = numeral 16 x.toNat := by
  induction n generalizing x with
  | zero => exact absurd (BitVec.eq_of_toNat_eq (Nat.lt_one_iff.mp hx)) h0
  | succ n ih =>
      have hand : (x &&& 0xf).toNat = x.toNat % 16 := by
        rw [BitVec.toNat_and]
        exact Nat.and_two_pow_sub_one_eq_mod x.toNat 4
      have hshift : (x >>> 4).toNat = x.toNat / 16 := by
        rw [BitVec.toNat_ushiftRight, Nat.shiftRight_eq_div_pow]
      rw [puthexLoop, if_neg h0, hand, digits_eq (Nat.mod_lt _ (by decide))]
      by_cases hlt : x.toNat < 16
      · have hz : x >>> 4 = 0 := BitVec.eq_of_toNat_eq (hshift.trans (Nat.div_eq_of_lt hlt))
        rw [hz, Nat.mod_eq_of_lt hlt, numeral_of_lt hlt]
        cases n <;> rfl
      · have hne : x >>> 4 ≠ 0 := fun hz => by
          have := congrArg BitVec.toNat hz
          rw [hshift] at this
          simp only [BitVec.ofNat_eq_ofNat, BitVec.toNat_ofNat, Nat.zero_mod] at this
          omega
        rw [ih hne (by rw [hshift]; omega), hshift]
        exact (numeral_of_le (by decide) (by omega)).symm

theorem puthex_eq (x : BitVec 64) (width : Nat) : puthex x width =
    List.replicate (width - (numeral 16 x.toNat).length) (digit 0) ++ numeral 16 x.toNat := by
  have hbuf : (if x = 0 then [chr '0'] else puthexLoop 16 x) = numeral 16 x.toNat := by
    split
    · rename_i h0
      rw [h0]
      rfl
    · rename_i h0
      exact puthexLoop_eq h0 x.isLt
  unfold puthex
  simp only [hbuf]
  congr 2
  omega

/-- The text of `uart_printf` for a number, without flag, width and length. -/
def uartText (spec : UInt8) (x : BitVec 64) : List UInt8 :=
  if spec = chr 'd' then intNumeral 10 (x.setWidth 32).toInt
  else if spec = chr 'u' then numeral 10 (x.setWidth 32).toNat
  else if spec = chr 'x' then numeral 16 (x.setWidth 32).toNat
  else ascii "0x" ++ (List.replicate (16 - (numeral 16 x.toNat).length) (digit 0) ++ numeral 16 x.toNat)

theorem putpad_zero (x : BitVec 64) (signedVal : Bool) :
    putpad x 10 0 false signedVal = intNumeral 10 (putpadValue signedVal x) := by
  have h := putpad_eq x 0 false signedVal
  rw [Nat.zero_sub, List.replicate_zero, List.nil_append, ← intNumeral_eq] at h
  exact h

theorem intNumeral_ofNat (b v : Nat) : intNumeral b (v : Int) = numeral b v := by
  unfold intNumeral
  rw [if_neg (by omega), Int.natAbs_natCast]

theorem uartPrintf_number (hs : spec ∈ numberSpecs) (x : BitVec 64) :
    uartPrintf [chr '%', spec, 0] [.num x] = .ok (uartText spec x, [0]) := by
  have hzero : ((0 : BitVec 32).toInt) = ((0 : Nat) : Int) := rfl
  simp only [numberSpecs, List.mem_cons, List.not_mem_nil, or_false] at hs
  rcases hs with rfl | rfl | rfl | rfl
  · have htext : uartPrintf [chr '%', chr 'd', 0] [.num x] =
        .ok (putpad ((x.setWidth 32).signExtend 64) 10 0 false true ++ [], [0]) := rfl
    have hval : putpadValue true ((x.setWidth 32).signExtend 64) = (x.setWidth 32).toInt :=
      BitVec.toInt_signExtend_of_le (by decide)
    rw [htext, putpad_zero, hval, List.append_nil]
    rfl
  · have htext : uartPrintf [chr '%', chr 'u', 0] [.num x] =
        .ok (putpad ((x.setWidth 32).setWidth 64) 10 0 false false ++ [], [0]) := rfl
    have hval : putpadValue false ((x.setWidth 32).setWidth 64) = ((x.setWidth 32).toNat : Int) := by
      unfold putpadValue
      simp only [Bool.false_eq_true, ↓reduceIte]
      rw [BitVec.toNat_setWidth, Nat.mod_eq_of_lt ((x.setWidth 32).isLt.trans (by decide))]
    rw [htext, putpad_zero, hval, List.append_nil, intNumeral_ofNat]
    rfl
  · have htext : uartPrintf [chr '%', chr 'x', 0] [.num x] =
        .ok (puthex ((x.setWidth 32).setWidth 64) ((0 : Nat) : Int) ++ [], [0]) := rfl
    have hval : ((x.setWidth 32).setWidth 64).toNat = (x.setWidth 32).toNat := by
      rw [BitVec.toNat_setWidth, Nat.mod_eq_of_lt ((x.setWidth 32).isLt.trans (by decide))]
    rw [htext, puthex_eq, hval, List.append_nil, Nat.zero_sub, List.replicate_zero, List.nil_append]
    rfl
  · have htext : uartPrintf [chr '%', chr 'p', 0] [.num x] =
        .ok (ascii "0x" ++ puthex x ((16 : Nat) : Int) ++ [], [0]) := rfl
    rw [htext, puthex_eq, List.append_nil]
    rfl

/-! ## Both -/

/-- The number that a text of the conversion is read as. -/
def readBack (spec : UInt8) (text : List UInt8) : Option Int :=
  if spec = chr 'd' then readInt 10 text
  else if spec = chr 'u' then (read 10 text).map Int.ofNat
  else if spec = chr 'x' then (read 16 text).map Int.ofNat
  else if text.take 2 = ascii "0x" then (read 16 (text.drop 2)).map Int.ofNat
  else none

/-- The value of the argument: an `int`, an `unsigned int` or a pointer. -/
def argValue (spec : UInt8) (x : BitVec 64) : Int :=
  if spec = chr 'd' then (x.setWidth 32).toInt
  else if spec = chr 'p' then x.toNat
  else (x.setWidth 32).toNat

/-- The texts of the two formatters are read as the value of the argument. -/
def FormattersAgree (spec : UInt8) (x : BitVec 64) : Prop :=
  (∃ text, uartPrintf [chr '%', spec, 0] [.num x] = .ok (text, [0]) ∧ readBack spec text = some (argValue spec x)) ∧
    ∀ buf size m, 32 ≤ size → size < 2 ^ 64 → ∃ i m' text,
      kvnprintf buf size [chr '%', spec] [.num x] m = .ok (i, m') ∧ StrAt m' buf text ∧
        readBack spec text = some (argValue spec x)

theorem readBack_uartText (hs : spec ∈ numberSpecs) (x : BitVec 64) :
    readBack spec (uartText spec x) = some (argValue spec x) := by
  simp only [numberSpecs, List.mem_cons, List.not_mem_nil, or_false] at hs
  rcases hs with rfl | rfl | rfl | rfl
  · exact readInt_intNumeral (by decide) (by decide)
  · exact congrArg (Option.map Int.ofNat) (read_numeral (by decide : 1 < 10) (by decide))
  · exact congrArg (Option.map Int.ofNat) (read_numeral (by decide : 1 < 16) (by decide))
  · exact congrArg (Option.map Int.ofNat) (read_zeros (by decide : 1 < 16) (by decide))

theorem readBack_kernelText (hs : spec ∈ numberSpecs) (x : BitVec 64) : readBack spec (kernelText spec x) =
    some (if spec = chr 'p' then ((x.setWidth 32).toNat : Int) else argValue spec x) := by
  simp only [numberSpecs, List.mem_cons, List.not_mem_nil, or_false] at hs
  rcases hs with rfl | rfl | rfl | rfl
  · exact readInt_intNumeral (by decide) (by decide)
  · exact congrArg (Option.map Int.ofNat) (read_numeral (by decide : 1 < 10) (by decide))
  · exact congrArg (Option.map Int.ofNat) (read_numeral (by decide : 1 < 16) (by decide))
  · exact congrArg (Option.map Int.ofNat) (read_numeral (by decide : 1 < 16) (by decide))

/-- The texts of both formatters are read as the argument, except for a pointer that does not fit in 32 bits. -/
theorem formatters_agree_iff (hs : spec ∈ numberSpecs) (x : BitVec 64) :
    FormattersAgree spec x ↔ (spec = chr 'p' → x.toNat < 2 ^ 32) := by
  have hread := readBack_kernelText hs x
  constructor
  · rintro ⟨-, hk⟩ rfl
    obtain ⟨i, m', text, h1, hat, ht⟩ := hk 0 32 (fun _ => 0) (by decide) (by decide)
    obtain ⟨i', m₁, h2, hat'⟩ := @kvnprintf_number 32 _ hs x 0 (fun _ => 0) (by decide) (by decide)
    obtain ⟨-, rfl⟩ := Prod.mk.inj (Except.ok.inj (h1.symm.trans h2))
    rw [hat.unique hat', hread, if_pos rfl] at ht
    have hval : ((x.setWidth 32).toNat : Int) = (x.toNat : Int) := Option.some.inj ht
    rw [← Int.ofNat.inj hval]
    exact (x.setWidth 32).isLt
  · intro h
    refine ⟨⟨_, uartPrintf_number hs x, readBack_uartText hs x⟩, fun buf size m hsize hsize' => ?_⟩
    obtain ⟨i, m', h1, hat⟩ := kvnprintf_number hs x buf m hsize hsize'
    refine ⟨i, m', _, h1, hat, ?_⟩
    rw [hread]
    split
    · rename_i hp
      subst hp
      have hval : (x.setWidth 32).toNat = x.toNat := by
        rw [BitVec.toNat_setWidth, Nat.mod_eq_of_lt (h rfl)]
      rw [hval]
      rfl
    · rfl

/-- The least `int`. -/
theorem formatters_agree_iff_least :
    FormattersAgree (chr 'd') 0x80000000 ↔ (chr 'd' = chr 'p' → (0x80000000 : BitVec 64).toNat < 2 ^ 32) :=
  formatters_agree_iff (by decide) 0x80000000

/-- An address above 4 GiB. -/
theorem formatters_disagree : ¬FormattersAgree (chr 'p') 0x100000000 := by
  rintro ⟨-, hk⟩
  obtain ⟨i, m', text, h1, hat, ht⟩ := hk 0 32 (fun _ => 0) (by decide) (by decide)
  have hs : chr 'p' ∈ numberSpecs := by decide
  obtain ⟨i', m₁, h2, hat'⟩ := @kvnprintf_number 32 _ hs 0x100000000 0 (fun _ => 0) (by decide) (by decide)
  obtain ⟨-, rfl⟩ := Prod.mk.inj (Except.ok.inj (h1.symm.trans h2))
  rw [hat.unique hat', readBack_kernelText hs, if_pos rfl] at ht
  cases Option.some.inj ht

end RiscvOs
