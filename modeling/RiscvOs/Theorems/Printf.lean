import RiscvOs.Theorems.Strtok
import RiscvOs.Lib.Numeral
import RiscvOs.Printf

/-!
# Numbers and formats

The digit loops print numerals. What a number is padded with is one character short where there is no sign, and
a format that ends inside a conversion is left behind its 0.
-/

namespace RiscvOs

open ByteMem Numeral

variable {base n v width : Nat} {val : BitVec 64} {zeroPad signedVal : Bool} {c spec : UInt8}
  {fmt text rest : List UInt8} {args : List Arg} {out : Writer}

/-! ## Digit loops -/

theorem putpadLoop_eq (hb : 2 ≤ base) (h0 : v ≠ 0) (hv : v < base ^ n) : putpadLoop base n v = numeral base v := by
  induction n generalizing v with
  | zero => exact absurd (Nat.lt_one_iff.mp hv) h0
  | succ n ih =>
      have hdigit : UInt8.ofNat (if v % base < 10 then 48 + v % base else 97 + v % base - 10) = digit (v % base) := by
        unfold digit
        split
        · rfl
        · congr 1
          omega
      rw [putpadLoop, if_neg h0]
      simp only [hdigit]
      by_cases hlt : v < base
      · rw [Nat.div_eq_of_lt hlt, Nat.mod_eq_of_lt hlt, numeral_of_lt hlt]
        cases n <;> rfl
      · have hdiv : v / base ≠ 0 := Nat.div_ne_zero_iff.mpr ⟨by omega, by omega⟩
        rw [ih hdiv (Nat.div_lt_of_lt_mul (by rwa [Nat.pow_succ'] at hv))]
        exact (numeral_of_le hb (by omega)).symm

/-- The number that `putpad` prints. -/
def putpadValue (signedVal : Bool) (val : BitVec 64) : Int := if signedVal then val.toInt else val.toNat

/-- The characters in front of the digits, and the digits. -/
theorem putpad_eq (val : BitVec 64) (width : Nat) (zeroPad signedVal : Bool) :
    putpad val 10 width zeroPad signedVal = (if putpadValue signedVal val < 0 then [chr '-'] else []) ++
      (List.replicate (width - ((numeral 10 (putpadValue signedVal val).natAbs).length + 1))
        (if zeroPad then chr '0' else chr ' ') ++ numeral 10 (putpadValue signedVal val).natAbs) := by
  obtain ⟨negative, hneg⟩ : ∃ negative, negative = (signedVal && decide (val.toInt < 0)) := ⟨_, rfl⟩
  have hiff : putpadValue signedVal val < 0 ↔ negative = true := by
    rw [hneg, putpadValue]
    cases signedVal with
    | false => simp
    | true => simp
  have habs : (if negative then -val else val).toNat = (putpadValue signedVal val).natAbs := by
    rw [hneg, putpadValue]
    cases signedVal with
    | false => simp
    | true =>
        simp only [Bool.true_and, decide_eq_true_eq, ↓reduceIte]
        have hlt := val.isLt
        rw [BitVec.toInt_eq_toNat_cond]
        split
        · rw [if_neg (by omega)]
          omega
        · rw [if_pos (by omega), BitVec.toNat_neg]
          omega
  have hbuf : (if (if negative then -val else val) = 0 then [chr '0']
      else putpadLoop 10 31 (if negative then -val else val).toNat) = numeral 10 (putpadValue signedVal val).natAbs := by
    rw [← habs]
    generalize (if negative then -val else val) = u
    split
    · rename_i h0
      rw [h0]
      rfl
    · rename_i h0
      refine putpadLoop_eq (by decide) (fun h => h0 (BitVec.eq_of_toNat_eq h)) ?_
      exact (BitVec.isLt _).trans (by decide)
  unfold putpad
  simp only [← hneg, hbuf]
  congr 1
  · simp only [hiff]
  · congr 2
    omega

/-- The text is the numeral of `v` with padding in front, after the sign where it is padded with zeros, and has as
many characters as the field or the numeral. -/
structure Padded (width : Nat) (zeroPad : Bool) (v : Int) (text : List UInt8) : Prop where
  length : text.length = max width (intNumeral 10 v).length
  zeros : zeroPad = true → ∃ k, text = (if v < 0 then [chr '-'] else []) ++
    (List.replicate k (chr '0') ++ numeral 10 v.natAbs)
  spaces : zeroPad = false → ∃ k, text = List.replicate k (chr ' ') ++ intNumeral 10 v

theorem intNumeral_eq (v : Int) : intNumeral 10 v = (if v < 0 then [chr '-'] else []) ++ numeral 10 v.natAbs := by
  unfold intNumeral
  split <;> rfl

/-- A number fills its field exactly when it is as long as the field, or negative and padded with zeros. -/
theorem putpad_padded_iff (val : BitVec 64) (width : Nat) (zeroPad signedVal : Bool) :
    (Padded width zeroPad (putpadValue signedVal val) (uartPutpad val 10 width zeroPad signedVal) ↔
      width ≤ (intNumeral 10 (putpadValue signedVal val)).length ∨ putpadValue signedVal val < 0 ∧ zeroPad = true) ∧
    (Padded width zeroPad (putpadValue signedVal val) (putpad val 10 width zeroPad signedVal) ↔
      width ≤ (intNumeral 10 (putpadValue signedVal val)).length ∨ putpadValue signedVal val < 0 ∧ zeroPad = true) := by
  refine and_self_iff.mpr ?_
  rw [uartPutpad, putpad_eq]
  generalize putpadValue signedVal val = v
  have hlen : (intNumeral 10 v).length = (if v < 0 then 1 else 0) + (numeral 10 v.natAbs).length := by
    rw [intNumeral_eq, List.length_append]
    split <;> rfl
  constructor
  · intro h
    have hl := h.length
    by_cases hv : v < 0
    · cases zeroPad with
      | true => exact .inr ⟨hv, rfl⟩
      | false =>
          left
          by_contra hw
          obtain ⟨k, hk⟩ := h.spaces rfl
          rw [intNumeral_eq, if_pos hv] at hk
          -- the sign stands in front of the spaces
          cases k with
          | zero =>
              have := congrArg List.length hk
              simp only [List.length_append, List.length_replicate, List.length_singleton, hv, ↓reduceIte] at this hlen
              omega
          | succ k => simp [List.replicate_succ, chr] at hk
    · left
      rw [if_neg hv] at hl hlen
      simp only [List.nil_append, List.length_append, List.length_replicate] at hl
      omega
  · intro h
    refine ⟨?_, fun hz => ⟨_, by rw [hz]; rfl⟩, fun hz => ⟨0, ?_⟩⟩
    · rw [hlen]
      simp only [List.length_append, List.length_replicate]
      rcases h with h | ⟨hv, -⟩
      · rw [hlen] at h
        split at h <;> rename_i hv
        · simp only [hv, ↓reduceIte, List.length_singleton]
          omega
        · simp only [hv, ↓reduceIte, List.length_nil]
          omega
      · simp only [hv, ↓reduceIte, List.length_singleton]
        omega
    · have hw : width ≤ (intNumeral 10 v).length := h.resolve_right fun hr => by simp [hz] at hr
      rw [hlen] at hw
      have hnone : width - ((numeral 10 v.natAbs).length + 1) = 0 := by
        split at hw <;> omega
      rw [hnone, intNumeral_eq]
      rfl

/-- A field of the date with a number of one digit. -/
theorem putpad_short : ¬Padded 2 true (putpadValue true 5) (uartPutpad 5 10 2 true true) := by
  intro h
  exact absurd h.length (by decide)

/-! ## Formats that are cut off -/

/-- What follows the flag, the field width and the length modifier. -/
def behindModifiers (fmt : List UInt8) : List UInt8 :=
  if (fmt.dropWhile isDigit).head? = some (chr 'l') then
    if (fmt.dropWhile isDigit).tail.head? = some (chr 'l') then (fmt.dropWhile isDigit).tail.tail
    else (fmt.dropWhile isDigit).tail
  else fmt.dropWhile isDigit

/-- No conversion of the format is cut off by its end. -/
inductive Whole : List UInt8 → Prop
  | nil : Whole []
  | char {c : UInt8} {fmt : List UInt8} (hc : c ≠ chr '%') (h : Whole fmt) : Whole (c :: fmt)
  | conversion {fmt rest : List UInt8} {spec : UInt8} (hspec : behindModifiers fmt = spec :: rest) (h : Whole rest) :
      Whole (chr '%' :: fmt)

/-- The calls for a format stop at its 0, unless an argument is missing. -/
def StopsAtNul (call : List UInt8 → List Arg → Except Fault (List UInt8 × List UInt8)) (fmt : List UInt8) : Prop :=
  ∀ args, call (fmt ++ [0]) args = .error .argument ∨ ∃ text, call (fmt ++ [0]) args = .ok (text, [0])

theorem behindModifiers_suffix (fmt : List UInt8) : behindModifiers fmt <:+ fmt := by
  have h := List.dropWhile_suffix isDigit (l := fmt)
  unfold behindModifiers
  split
  · split
    · exact ((List.tail_suffix _).trans (List.tail_suffix _)).trans h
    · exact (List.tail_suffix _).trans h
  · exact h

theorem parseWidth_eq (width : BitVec 32) (fmt : List UInt8) :
    ∃ w, parseWidth width (fmt ++ [0]) = .ok (w, fmt.dropWhile isDigit ++ [0]) := by
  induction fmt generalizing width with
  | nil => exact ⟨width, rfl⟩
  | cons c fmt ih =>
      rw [List.cons_append, parseWidth]
      by_cases hc : isDigit c
      · rw [if_pos hc, List.dropWhile_cons_of_pos hc]
        exact ih _
      · rw [if_neg hc, List.dropWhile_cons_of_neg hc]
        exact ⟨width, rfl⟩

/-- The flag is the first digit. -/
theorem parseFlags_eq (fmt : List UInt8) : ∃ z fmt', parseFlags (fmt ++ [0]) = .ok (z, fmt' ++ [0]) ∧
    fmt'.dropWhile isDigit = fmt.dropWhile isDigit := by
  cases fmt with
  | nil => exact ⟨false, [], rfl, rfl⟩
  | cons c fmt =>
      by_cases hc : c = chr '0'
      · subst hc
        exact ⟨true, fmt, rfl, (List.dropWhile_cons_of_pos (by decide)).symm⟩
      · refine ⟨false, c :: fmt, ?_, rfl⟩
        simp [parseFlags, fmtChar, hc]

theorem parseLength_eq (fmt : List UInt8) : ∃ k, parseLength (fmt ++ [0]) =
    .ok (k, (if fmt.head? = some (chr 'l') then if fmt.tail.head? = some (chr 'l') then fmt.tail.tail else fmt.tail
      else fmt) ++ [0]) := by
  cases fmt with
  | nil => exact ⟨0, rfl⟩
  | cons c fmt =>
      by_cases hc : c = chr 'l'
      · subst hc
        cases fmt with
        | nil => exact ⟨1, rfl⟩
        | cons d fmt =>
            by_cases hd : d = chr 'l'
            · subst hd
              exact ⟨2, rfl⟩
            · refine ⟨1, ?_⟩
              simp [parseLength, fmtChar, hd]
      · refine ⟨0, ?_⟩
        simp [parseLength, fmtChar, hc]

/-- A round that meets a `%`. -/
theorem printfLoop_conversion (out : Writer) (n : Nat) (fmt : List UInt8) (args : List Arg) :
    ∃ z w k, printfLoop out (n + 1) (chr '%' :: fmt ++ [0]) args =
      (fmtChar (behindModifiers fmt ++ [0]) >>= fun spec =>
        putConversion out z w k spec args >>= fun r =>
          printfLoop out n (behindModifiers fmt ++ [0]).tail r.2 >>= fun r' => .ok (r.1 ++ r'.1, r'.2)) := by
  obtain ⟨z, fmt', h1, hdrop⟩ := parseFlags_eq fmt
  obtain ⟨w, h2⟩ := parseWidth_eq 0 fmt'
  obtain ⟨k, h3⟩ := parseLength_eq (fmt.dropWhile isDigit)
  rw [hdrop] at h2
  refine ⟨z, w.toInt, k, ?_⟩
  rw [printfLoop, List.cons_append, fmtChar, Outcome.ok_bind, if_neg (by decide), if_pos rfl, List.tail_cons, h1,
    Outcome.ok_bind]
  dsimp only
  rw [h2, Outcome.ok_bind]
  dsimp only
  rw [h3, Outcome.ok_bind]
  rfl

/-- An argument of the kind that the conversion takes. -/
theorem exists_args (out : Writer) (spec : UInt8) :
    ∃ pre, ∀ z w k args, ∃ text, putConversion out z w k spec (pre ++ args) = .ok (text, args) := by
  unfold putConversion
  by_cases hs : spec = chr 's'
  · subst hs
    exact ⟨[.str none], fun z w k args => ⟨_, rfl⟩⟩
  by_cases hnum : spec ∈ [chr 'd', chr 'u', chr 'x', chr 'c', chr 'p']
  · refine ⟨[.num 0], fun z w k args => ?_⟩
    simp only [List.mem_cons, List.not_mem_nil, or_false] at hnum
    rcases hnum with rfl | rfl | rfl | rfl | rfl <;> exact ⟨_, rfl⟩
  · simp only [List.mem_cons, List.not_mem_nil, or_false, not_or] at hnum
    refine ⟨[], fun z w k args => ?_⟩
    simp only [hs, hnum, if_false, List.nil_append]
    split <;> exact ⟨_, rfl⟩

theorem putConversion_cases (out : Writer) (z : Bool) (w : Int) (k : Nat) (spec : UInt8) (args : List Arg) :
    putConversion out z w k spec args = .error .argument ∨ ∃ r, putConversion out z w k spec args = .ok r := by
  unfold putConversion
  split_ifs <;> first | exact .inr ⟨_, rfl⟩ | (split <;> first | exact .inr ⟨_, rfl⟩ | exact .inl rfl)

theorem whole_char (hc : c ≠ chr '%') : Whole (c :: fmt) ↔ Whole fmt := by
  refine ⟨fun h => ?_, .char hc⟩
  cases h with
  | char _ h => exact h
  | conversion => exact absurd rfl hc

theorem whole_conversion (h : behindModifiers fmt = spec :: rest) : Whole (chr '%' :: fmt) ↔ Whole rest := by
  refine ⟨fun hw => ?_, .conversion h⟩
  cases hw with
  | char hc => exact absurd rfl hc
  | conversion hspec hw =>
      obtain ⟨-, rfl⟩ := List.cons.inj (h.symm.trans hspec)
      exact hw

theorem not_whole (h : behindModifiers fmt = []) : ¬Whole (chr '%' :: fmt) := by
  intro hw
  cases hw with
  | char hc => exact hc rfl
  | conversion hspec => exact List.cons_ne_nil _ _ (hspec.symm.trans h)

theorem behindModifiers_cons (h : behindModifiers fmt = spec :: rest) (h0 : 0 ∉ fmt) :
    spec ≠ 0 ∧ 0 ∉ rest ∧ rest.length < fmt.length := by
  have hs := behindModifiers_suffix fmt
  rw [h] at hs
  have hlen := hs.length_le
  rw [List.length_cons] at hlen
  exact ⟨fun he => h0 (hs.subset (by simp [he])), fun hm => h0 (hs.subset (List.mem_cons_of_mem _ hm)), hlen⟩

/-- The conversion that takes the 0 for its character. -/
theorem putConversion_zero (out : Writer) (z : Bool) (w : Int) (k : Nat) (args : List Arg) :
    putConversion out z w k 0 args = .ok ([chr '%', 0], args) := rfl

theorem printfLoop_char (hc : c ≠ 0) (hp : c ≠ chr '%') : printfLoop out (n + 1) (c :: fmt) args =
    (printfLoop out n fmt args >>= fun r => .ok (c :: r.1, r.2)) := by
  rw [printfLoop, fmtChar, Outcome.ok_bind, if_neg hc, if_neg hp]
  rfl

/-- A conversion that is cut off. -/
theorem printfLoop_cut (h : behindModifiers fmt = []) (hn : n ≠ 0) :
    printfLoop out (n + 1) (chr '%' :: fmt ++ [0]) args = .error .format := by
  obtain ⟨z, w, k, heq⟩ := printfLoop_conversion out n fmt args
  obtain ⟨n, rfl⟩ := Nat.exists_eq_succ_of_ne_zero hn
  rw [heq, h]
  rfl

/-- How the loop ends. -/
theorem printfLoop_ends (out : Writer) (h0 : 0 ∉ fmt) (hn : fmt.length + 1 < n) (args : List Arg) :
    printfLoop out n (fmt ++ [0]) args = .error .argument ∨
      (Whole fmt ∧ ∃ text, printfLoop out n (fmt ++ [0]) args = .ok (text, [0])) ∨
      (¬Whole fmt ∧ printfLoop out n (fmt ++ [0]) args = .error .format) := by
  induction n generalizing fmt args with
  | zero => cases hn
  | succ n ih =>
      cases fmt with
      | nil => exact .inr (.inl ⟨.nil, [], rfl⟩)
      | cons c fmt =>
          have hc0 : c ≠ 0 := fun he => h0 (by simp [he])
          rw [List.length_cons] at hn
          by_cases hc : c = chr '%'
          · subst hc
            cases hb : behindModifiers fmt with
            | nil => exact .inr (.inr ⟨not_whole hb, printfLoop_cut hb (by omega)⟩)
            | cons spec rest =>
                obtain ⟨-, h0', hlen⟩ := behindModifiers_cons hb fun h => h0 (List.mem_cons_of_mem _ h)
                obtain ⟨z, w, k, heq⟩ := printfLoop_conversion out n fmt args
                rw [heq, hb, whole_conversion hb, List.cons_append, fmtChar, Outcome.ok_bind, List.tail_cons]
                rcases putConversion_cases out z w k spec args with he | ⟨r, hr⟩
                · rw [he]
                  exact .inl rfl
                · rw [hr, Outcome.ok_bind]
                  rcases ih h0' (by omega) r.2 with he | ⟨hw, text, ht⟩ | ⟨hw, he⟩
                  · rw [he]
                    exact .inl rfl
                  · rw [ht]
                    exact .inr (.inl ⟨hw, _, rfl⟩)
                  · rw [he]
                    exact .inr (.inr ⟨hw, rfl⟩)
          · rw [List.cons_append, printfLoop_char hc0 hc, whole_char hc]
            rcases ih (fun h => h0 (List.mem_cons_of_mem _ h)) (by omega) args with he | ⟨hw, text, ht⟩ | ⟨hw, he⟩
            · rw [he]
              exact .inl rfl
            · rw [ht]
              exact .inr (.inl ⟨hw, _, rfl⟩)
            · rw [he]
              exact .inr (.inr ⟨hw, rfl⟩)

/-- No argument is missing in a call with the arguments that the conversions take. -/
theorem exists_call (out : Writer) (h0 : 0 ∉ fmt) (hn : fmt.length + 1 < n) :
    ∃ args, printfLoop out n (fmt ++ [0]) args ≠ .error .argument := by
  induction n generalizing fmt with
  | zero => cases hn
  | succ n ih =>
      cases fmt with
      | nil => exact ⟨[], fun h => by cases h⟩
      | cons c fmt =>
          have hc0 : c ≠ 0 := fun he => h0 (by simp [he])
          rw [List.length_cons] at hn
          by_cases hc : c = chr '%'
          · subst hc
            cases hb : behindModifiers fmt with
            | nil =>
                refine ⟨[], ?_⟩
                rw [printfLoop_cut hb (by omega)]
                exact fun h => by cases h
            | cons spec rest =>
                obtain ⟨-, h0', hlen⟩ := behindModifiers_cons hb fun h => h0 (List.mem_cons_of_mem _ h)
                obtain ⟨args, hargs⟩ := ih h0' (by omega)
                obtain ⟨pre, hpre⟩ := exists_args out spec
                obtain ⟨z, w, k, heq⟩ := printfLoop_conversion out n fmt (pre ++ args)
                obtain ⟨text, ht⟩ := hpre z w k args
                refine ⟨pre ++ args, ?_⟩
                rw [heq, hb, List.cons_append, fmtChar, Outcome.ok_bind, List.tail_cons, ht, Outcome.ok_bind]
                cases hl : printfLoop out n (rest ++ [0]) args with
                | error e =>
                    intro h
                    cases h
                    exact hargs hl
                | ok r => exact fun h => by cases h
          · obtain ⟨args, hargs⟩ := ih (fun h => h0 (List.mem_cons_of_mem _ h)) (by omega)
            refine ⟨args, ?_⟩
            rw [List.cons_append, printfLoop_char hc0 hc]
            cases hl : printfLoop out n (fmt ++ [0]) args with
            | error e =>
                intro h
                cases h
                exact hargs hl
            | ok r => exact fun h => by cases h

theorem stopsAtNul_iff (out : Writer) (h0 : 0 ∉ fmt) :
    StopsAtNul (fun fmt args => printfLoop out (fmt.length + 1) fmt args) fmt ↔ Whole fmt := by
  have hn : fmt.length + 1 < (fmt ++ [0]).length + 1 := by simp
  constructor
  · intro h
    obtain ⟨args, hargs⟩ := exists_call out h0 hn
    obtain ⟨text, ht⟩ := (h args).resolve_left hargs
    rcases printfLoop_ends out h0 hn args with he | ⟨hw, -⟩ | ⟨-, he⟩
    · exact absurd he hargs
    · exact hw
    · cases he.symm.trans ht
  · intro hw args
    rcases printfLoop_ends out h0 hn args with he | ⟨-, ht⟩ | ⟨hn, -⟩
    · exact .inl he
    · exact .inr ht
    · exact absurd hw hn

/-- The calls for a format read no character behind its 0 and stop there exactly when no conversion of the format
is cut off. -/
theorem printf_stops_iff (h0 : 0 ∉ fmt) :
    (StopsAtNul uartPrintf fmt ↔ Whole fmt) ∧ (StopsAtNul printf fmt ↔ Whole fmt) :=
  ⟨stopsAtNul_iff _ h0, stopsAtNul_iff _ h0⟩

/-- A field of the date. -/
theorem printf_stops_iff_date : (StopsAtNul uartPrintf (ascii "%02d:") ↔ Whole (ascii "%02d:")) ∧
    (StopsAtNul printf (ascii "%02d:") ↔ Whole (ascii "%02d:")) := printf_stops_iff (by decide)

/-- A format that ends behind `%`. -/
theorem printf_past_nul : ¬StopsAtNul uartPrintf (ascii "50%") := by
  have hend : uartPrintf (ascii "50%" ++ [0]) [] = .error .format := rfl
  intro h
  rcases h [] with he | ⟨text, ht⟩
  · cases hend.symm.trans he
  · cases hend.symm.trans ht

end RiscvOs
