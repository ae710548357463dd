import Mathlib

/-!
# Numerals

The numeral of a number in a base up to 16, as text, and how a text is read as a number.
-/

namespace Numeral

/-- The character of a digit. -/
def digit (d : Nat) : UInt8 := if d < 10 then UInt8.ofNat (48 + d) else UInt8.ofNat (87 + d)

/-- The numeral of `v`, without leading zeros. -/
def numeral (b v : Nat) : List UInt8 := if v = 0 then [digit 0] else ((Nat.digits b v).map digit).reverse

/-- The value of a digit. -/
def digitVal (c : UInt8) : Option Nat :=
  if 48 ≤ c.toNat ∧ c.toNat ≤ 57 then some (c.toNat - 48)
  else if 97 ≤ c.toNat ∧ c.toNat ≤ 102 then some (c.toNat - 87)
  else none

/-- One more digit is read. -/
def readDigit (b : Nat) (acc : Option Nat) (c : UInt8) : Option Nat :=
  acc.bind fun v => (digitVal c).bind fun d => if d < b then some (v * b + d) else none

/-- The number that a text is read as. -/
def read (b : Nat) (s : List UInt8) : Option Nat := if s = [] then none else s.foldl (readDigit b) (some 0)

/-- The numeral of an integer. -/
def intNumeral (b : Nat) (v : Int) : List UInt8 := if v < 0 then 45 :: numeral b v.natAbs else numeral b v.natAbs

/-- The integer that a text is read as. -/
def readInt (b : Nat) : List UInt8 → Option Int
  | [] => none
  | c :: s => if c = 45 then (read b s).map fun (v : Nat) => -(v : Int) else (read b (c :: s)).map fun (v : Nat) => (v : Int)

/-- `s` is the text of `v` in its usual form: digits of the base, without a zero in front of others. -/
structure Canonical (b v : Nat) (s : List UInt8) : Prop where
  nonempty : s ≠ []
  digits : ∀ c ∈ s, ∃ d < b, c = digit d
  lead : 1 < s.length → s.head? ≠ some (digit 0)
  value : read b s = some v

variable {b v d k : Nat} {s : List UInt8} {i : Int}

theorem digitVal_digit (h : d < 16) : digitVal (digit d) = some d := by
  revert h d
  decide

theorem digit_ne (h : d < 16) : digit d ≠ 0 ∧ digit d ≠ 45 ∧ digit d ≠ 32 := by
  revert h d
  decide

theorem numeral_of_lt (h : v < b) : numeral b v = [digit v] := by
  unfold numeral
  split
  · rename_i h0
    rw [h0]
  · rename_i h0
    rw [Nat.digits_of_lt b v h0 h]
    rfl

/-- The last digit is split off. -/
theorem numeral_of_le (hb : 1 < b) (h : b ≤ v) : numeral b v = numeral b (v / b) ++ [digit (v % b)] := by
  have hdiv : v / b ≠ 0 := Nat.div_ne_zero_iff.mpr ⟨by omega, h⟩
  rw [numeral, if_neg (by omega), numeral, if_neg hdiv, Nat.digits_def' hb (by omega), List.map_cons, List.reverse_cons]

theorem numeral_ne_nil (hb : 1 < b) : numeral b v ≠ [] := by
  by_cases h : v < b
  · rw [numeral_of_lt h]
    exact List.cons_ne_nil _ _
  · rw [numeral_of_le hb (by omega)]
    exact List.append_ne_nil_of_right_ne_nil _ (List.cons_ne_nil _ _)

theorem mem_numeral_lt (hb : 1 < b) : ∀ c ∈ numeral b v, ∃ d < b, c = digit d := by
  induction v using Nat.strong_induction_on with
  | _ v ih =>
      intro c hc
      by_cases h : v < b
      · rw [numeral_of_lt h, List.mem_singleton] at hc
        exact ⟨v, h, hc⟩
      · rw [numeral_of_le hb (by omega), List.mem_append, List.mem_singleton] at hc
        rcases hc with hc | hc
        · exact ih _ (Nat.div_lt_self (by omega) hb) c hc
        · exact ⟨v % b, Nat.mod_lt v (by omega), hc⟩

theorem mem_numeral (hb : 1 < b) (hb' : b ≤ 16) : ∀ c ∈ numeral b v, ∃ d < 16, c = digit d := by
  intro c hc
  obtain ⟨d, hd, hcd⟩ := mem_numeral_lt hb c hc
  exact ⟨d, hd.trans_le hb', hcd⟩

theorem numeral_length (hb : 1 < b) (hk : 0 < k) (hv : v < b ^ k) : (numeral b v).length ≤ k := by
  induction k, hk using Nat.le_induction generalizing v with
  | base => rw [numeral_of_lt (by simpa using hv), List.length_singleton]
  | succ k hk ih =>
      by_cases h : v < b
      · rw [numeral_of_lt h, List.length_singleton]
        omega
      · rw [numeral_of_le hb (by omega), List.length_append, List.length_singleton]
        exact Nat.succ_le_succ (ih (Nat.div_lt_of_lt_mul (by rwa [Nat.pow_succ'] at hv)))

/-- The first digit is not 0, unless it is the only one. -/
theorem numeral_head (hb : 1 < b) (hb' : b ≤ 16) (hv : v ≠ 0) : (numeral b v).head? ≠ some (digit 0) := by
  induction v using Nat.strong_induction_on with
  | _ v ih =>
      by_cases h : v < b
      · rw [numeral_of_lt h, List.head?_cons]
        intro he
        have hval := digitVal_digit (h.trans_le hb')
        rw [Option.some.inj he, digitVal_digit (by decide)] at hval
        exact hv (Option.some.inj hval).symm
      · have hdiv : v / b ≠ 0 := Nat.div_ne_zero_iff.mpr ⟨by omega, by omega⟩
        rw [numeral_of_le hb (by omega), List.head?_append_of_ne_nil _ (numeral_ne_nil hb)]
        exact ih _ (Nat.div_lt_self (by omega) hb) hdiv

/-- The numeral is read as its number. -/
theorem foldl_numeral (hb : 1 < b) (hb' : b ≤ 16) : (numeral b v).foldl (readDigit b) (some 0) = some v := by
  induction v using Nat.strong_induction_on with
  | _ v ih =>
      by_cases h : v < b
      · rw [numeral_of_lt h]
        simp [readDigit, digitVal_digit (h.trans_le hb'), h]
      · have hlt : v % b < b := Nat.mod_lt v (by omega)
        rw [numeral_of_le hb (by omega), List.foldl_append, ih _ (Nat.div_lt_self (by omega) hb)]
        simp [readDigit, digitVal_digit (hlt.trans_le hb'), hlt, Nat.div_add_mod']

theorem read_numeral (hb : 1 < b) (hb' : b ≤ 16) : read b (numeral b v) = some v := by
  rw [read, if_neg (numeral_ne_nil hb), foldl_numeral hb hb']

theorem canonical_numeral (hb : 1 < b) (hb' : b ≤ 16) : Canonical b v (numeral b v) where
  nonempty := numeral_ne_nil hb
  digits := mem_numeral_lt hb
  lead hlen := by
    refine numeral_head hb hb' fun hv => ?_
    rw [hv, numeral_of_lt (by omega), List.length_singleton] at hlen
    omega
  value := read_numeral hb hb'

/-- Zeros in front do not count. -/
theorem read_zeros (hb : 1 < b) (hb' : b ≤ 16) : read b (List.replicate k (digit 0) ++ numeral b v) = some v := by
  have hzeros : (List.replicate k (digit 0)).foldl (readDigit b) (some 0) = some 0 := by
    induction k with
    | zero => rfl
    | succ k ih =>
        rw [List.replicate_succ, List.foldl_cons]
        have h0 : readDigit b (some 0) (digit 0) = some 0 := by
          simp [readDigit, digitVal_digit (by decide : 0 < 16), Nat.zero_lt_of_lt hb]
        rw [h0, ih]
  rw [read, if_neg (List.append_ne_nil_of_right_ne_nil _ (numeral_ne_nil hb)), List.foldl_append, hzeros,
    foldl_numeral hb hb']

theorem readInt_numeral (hb : 1 < b) (hb' : b ≤ 16) : readInt b (numeral b v) = some (v : Int) := by
  have hmem := mem_numeral (v := v) hb hb'
  have hread := read_numeral (v := v) hb hb'
  cases hn : numeral b v with
  | nil => exact absurd hn (numeral_ne_nil hb)
  | cons c s =>
      rw [hn] at hmem hread
      obtain ⟨d, hd, rfl⟩ := hmem c (List.mem_cons_self ..)
      rw [readInt, if_neg (digit_ne hd).2.1, hread]
      rfl

theorem readInt_intNumeral (hb : 1 < b) (hb' : b ≤ 16) : readInt b (intNumeral b i) = some i := by
  unfold intNumeral
  split
  · rw [readInt, if_pos rfl, read_numeral hb hb', Option.map_some]
    congr 1
    omega
  · rw [readInt_numeral hb hb']
    congr 1
    omega

end Numeral
