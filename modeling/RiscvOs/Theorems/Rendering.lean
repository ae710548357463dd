import RiscvOs.Theorems.Formatters

/-!
# What a format prints

A format that is not cut off is a list of pieces, characters and conversions, in one way only. The text that comes
out is made of the texts of its pieces, which take the arguments in their order.
-/

namespace RiscvOs

open Numeral Outcome

variable {n v u : Nat} {w : BitVec 32} {c spec : UInt8} {digs fmt rest rest' : List UInt8} {args : List Arg}

/-! ## Pieces -/

/-- A conversion as it is written: the flag, the digits of the width, the length modifier and the character. -/
structure Conversion where
  zeroPad : Bool
  width : List UInt8
  length : Nat
  spec : UInt8
  isDigit_width : ∀ c ∈ width, isDigit c
  -- the first 0 is the flag
  flag : zeroPad = false → width.head? ≠ some (chr '0')
  length_le : length ≤ 2
  spec_ne_zero : spec ≠ 0
  spec_not_digit : length = 0 → ¬isDigit spec
  spec_ne_modifier : length < 2 → spec ≠ chr 'l'

inductive Piece
  | char (c : UInt8) (h0 : c ≠ 0) (hc : c ≠ chr '%')
  | conversion (d : Conversion)

namespace Conversion

/-- From the length modifier on. -/
def suffix (d : Conversion) : List UInt8 := List.replicate d.length (chr 'l') ++ [d.spec]

/-- What stands behind `%`. -/
def body (d : Conversion) : List UInt8 := (if d.zeroPad then [chr '0'] else []) ++ (d.width ++ d.suffix)

/-- The width of the field; the `int` wraps, and a negative one is no width. -/
def field (d : Conversion) : Nat := (BitVec.ofNat 32 ((read 10 d.width).getD 0)).toInt.toNat

/-- A decimal number. The padding is one character short, also where there is no sign. -/
def number (d : Conversion) (v : Int) : List UInt8 :=
  (if v < 0 then [chr '-'] else []) ++
    (List.replicate (d.field - ((numeral 10 v.natAbs).length + 1)) (if d.zeroPad then chr '0' else chr ' ') ++
      numeral 10 v.natAbs)

/-- Without a length modifier the argument is an `int`. -/
def signed (d : Conversion) (v : BitVec 64) : Int := if d.length = 0 then (v.setWidth 32).toInt else v.toInt

def unsigned (d : Conversion) (v : BitVec 64) : Nat := if d.length = 0 then (v.setWidth 32).toNat else v.toNat

end Conversion

/-- A hexadecimal number. -/
def hexNumber (field v : Nat) : List UInt8 :=
  List.replicate (field - (numeral 16 v).length) (digit 0) ++ numeral 16 v

/-- A text made of the next argument, a number. -/
def takeNum (f : BitVec 64 → List UInt8) : List Arg → Except Fault (List UInt8 × List Arg)
  | .num v :: args => .ok (f v, args)
  | _ => .error .argument

/-- The next argument, a string. -/
def takeStr : List Arg → Except Fault (List UInt8 × List Arg)
  | .str s :: args => .ok ((s.getD (ascii "(null)")).takeWhile (· ≠ 0), args)
  | _ => .error .argument

/-- The text of a conversion, with the arguments that are left. -/
def Conversion.print (d : Conversion) (args : List Arg) : Except Fault (List UInt8 × List Arg) :=
  if d.spec = chr 'd' then takeNum (fun v => d.number (d.signed v)) args
  else if d.spec = chr 'u' then takeNum (fun v => d.number (d.unsigned v)) args
  else if d.spec = chr 'x' then takeNum (fun v => hexNumber d.field (d.unsigned v)) args
  else if d.spec = chr 'c' then takeNum (fun v => [UInt8.ofNat v.toNat]) args
  else if d.spec = chr 's' then takeStr args
  else if d.spec = chr 'p' then takeNum (fun v => ascii "0x" ++ hexNumber 16 v.toNat) args
  else if d.spec = chr '%' then .ok ([chr '%'], args)
  else .ok ([chr '%', d.spec], args)

/-- The format that the pieces make. -/
def source : List Piece → List UInt8
  | [] => []
  | .char c _ _ :: ps => c :: source ps
  | .conversion d :: ps => chr '%' :: (d.body ++ source ps)

/-- The text that the pieces make. -/
def render : List Piece → List Arg → Except Fault (List UInt8)
  | [], _ => .ok []
  | .char c _ _ :: ps, args => (render ps args).map (c :: ·)
  | .conversion d :: ps, args => do
    let (text, args) ← d.print args
    (render ps args).map (text ++ ·)

/-! ## Reading a conversion -/

theorem digit_char (h : isDigit c) :
    c ≠ 0 ∧ readDigit 10 (some v) c = some (v * 10 + (c.toNat - 48)) := by
  unfold isDigit at h
  rw [Bool.and_eq_true, decide_eq_true_eq, decide_eq_true_eq] at h
  have h1 : 48 ≤ c.toNat := UInt8.le_iff_toNat_le.mp h.1
  have h2 : c.toNat ≤ 57 := UInt8.le_iff_toNat_le.mp h.2
  refine ⟨fun he => ?_, ?_⟩
  · rw [he] at h1
    exact absurd h1 (by decide)
  · unfold readDigit digitVal
    rw [Option.bind_some, if_pos ⟨h1, h2⟩, Option.bind_some, if_pos (by omega)]

/-- The width that is read off the digits. -/
theorem parseWidth_digits (hd : ∀ c ∈ digs, isDigit c) (hr : ∀ c ∈ rest.head?, ¬isDigit c) (hne : rest ≠ []) :
    ∃ u, digs.foldl (readDigit 10) (some v) = some u ∧
      parseWidth (BitVec.ofNat 32 v) (digs ++ rest) = .ok (BitVec.ofNat 32 u, rest) := by
  induction digs generalizing v with
  | nil =>
      obtain ⟨c, rest, rfl⟩ := List.exists_cons_of_ne_nil hne
      exact ⟨v, rfl, if_neg (hr c rfl)⟩
  | cons c digs ih =>
      obtain ⟨hc, hds⟩ := List.forall_mem_cons.mp hd
      obtain ⟨u, h1, h2⟩ := ih (v := v * 10 + (c.toNat - 48)) hds
      refine ⟨u, ?_, ?_⟩
      · rw [List.foldl_cons, (digit_char hc).2, h1]
      · rw [List.cons_append, parseWidth, if_pos hc, ← h2, BitVec.ofNat_add, BitVec.ofNat_mul]
        rfl

namespace Conversion

variable {d d' : Conversion}

/-- Behind the digits there is none. -/
theorem suffix_head (d : Conversion) (rest : List UInt8) : ∀ c ∈ (d.suffix ++ rest).head?, ¬isDigit c := by
  unfold suffix
  cases hk : d.length with
  | zero =>
      rintro c hc
      obtain rfl : d.spec = c := Option.some.inj hc
      exact d.spec_not_digit hk
  | succ k =>
      rintro c hc
      obtain rfl : chr 'l' = c := Option.some.inj hc
      decide

theorem suffix_ne_nil (d : Conversion) (rest : List UInt8) : d.suffix ++ rest ≠ [] := by simp [suffix]

theorem parseFlags_body : parseFlags (d.body ++ rest) = .ok (d.zeroPad, d.width ++ (d.suffix ++ rest)) := by
  unfold body
  cases hz : d.zeroPad with
  | true => simp [parseFlags, fmtChar]
  | false =>
      have hhead : ∀ c ∈ (d.width ++ (d.suffix ++ rest)).head?, c ≠ chr '0' := by
        intro c hc
        cases hw : d.width with
        | nil =>
            rw [hw, List.nil_append] at hc
            intro he
            exact suffix_head d rest c hc (by rw [he]; decide)
        | cons x xs =>
            rw [hw] at hc
            obtain rfl : x = c := Option.some.inj hc
            have := d.flag hz
            rw [hw] at this
            exact fun he => this (congrArg some he)
      rw [if_neg (by decide), List.nil_append, List.append_assoc]
      cases hl : d.width ++ (d.suffix ++ rest) with
      | nil => exact absurd (List.append_eq_nil_iff.mp hl).2 (suffix_ne_nil d rest)
      | cons c l =>
          rw [hl] at hhead
          rw [parseFlags, fmtChar, ok_bind, if_neg (hhead c rfl)]

theorem parseWidth_body (d : Conversion) (rest : List UInt8) :
    ∃ w, parseWidth 0 (d.width ++ (d.suffix ++ rest)) = .ok (w, d.suffix ++ rest) ∧
    w.toInt.toNat = d.field := by
  obtain ⟨u, h1, h2⟩ := parseWidth_digits (v := 0) d.isDigit_width (d.suffix_head rest) (d.suffix_ne_nil rest)
  refine ⟨_, h2, ?_⟩
  unfold field Numeral.read
  split
  · rename_i hw
    rw [hw] at h1
    rw [← Option.some.inj h1]
    rfl
  · rw [h1]
    rfl

theorem parseLength_suffix : parseLength (d.suffix ++ rest) = .ok (d.length, d.spec :: rest) := by
  unfold suffix
  have hl := d.spec_ne_modifier
  have hle := d.length_le
  rcases hk : d.length with _ | _ | _ | k
  · rw [hk] at hl
    simp [parseLength, fmtChar, hl (by decide)]
  · rw [hk] at hl
    simp [parseLength, fmtChar, hl (by decide)]
  · rfl
  · omega

/-- The characters of a conversion are read back, with what follows them. -/
theorem body_inj (h : d.body ++ rest = d'.body ++ rest') : d = d' ∧ rest = rest' := by
  have hflag := Except.ok.inj ((parseFlags_body (d := d)).symm.trans ((congrArg parseFlags h).trans parseFlags_body))
  rw [Prod.mk.injEq] at hflag
  obtain ⟨hz, htext⟩ := hflag
  have hword : ∀ (d : Conversion) rest, (d.width ++ (d.suffix ++ rest)).takeWhile isDigit = d.width := fun d rest =>
    Words.takeWhile_append d.isDigit_width fun c hc => by simpa using d.suffix_head rest c hc
  have hw : d.width = d'.width := by rw [← hword d rest, htext, hword]
  rw [hw] at htext
  have hlen := Except.ok.inj ((parseLength_suffix (d := d)).symm.trans
    ((congrArg parseLength (List.append_cancel_left htext)).trans parseLength_suffix))
  rw [Prod.mk.injEq, List.cons.injEq] at hlen
  obtain ⟨hl, hs, hr⟩ := hlen
  refine ⟨?_, hr⟩
  cases d
  cases d'
  cases hz
  cases hw
  cases hl
  cases hs
  rfl

/-! ## The text of a conversion -/

/-- A negative width is none. -/
theorem putpad_toNat (val : BitVec 64) (base : Nat) (width : Int) (zeroPad signedVal : Bool) :
    putpad val base width zeroPad signedVal = putpad val base (width.toNat : Nat) zeroPad signedVal := by
  unfold putpad
  simp only
  congr 3
  omega

theorem puthex_toNat (value : BitVec 64) (width : Int) : puthex value width = puthex value (width.toNat : Nat) := by
  unfold puthex
  simp only
  congr 2
  omega

theorem putConversion_eq (hw : w.toInt.toNat = d.field) (args : List Arg) :
    putConversion ⟨putpad, puthex⟩ d.zeroPad w.toInt d.length d.spec args = d.print args := by
  have hle := d.length_le
  have hlong : (d.length = 2 ∨ d.length = 1) ↔ ¬d.length = 0 := by omega
  have hnum : ∀ val signedVal, putpad val 10 w.toInt d.zeroPad signedVal = d.number (putpadValue signedVal val) :=
    fun val signedVal => by rw [putpad_toNat, hw, putpad_eq, number]
  have hhex : ∀ val, puthex val w.toInt = hexNumber d.field val.toNat := fun val => by
    rw [puthex_toNat, hw, puthex_eq, hexNumber]
  have hptr : ∀ val, puthex val 16 = hexNumber 16 val.toNat := fun val => puthex_eq val 16
  -- without a modifier the argument is cut to 32 bits
  have hsigned : ∀ v, putpadValue true (if ¬d.length = 0 then v else (v.setWidth 32).signExtend 64) = d.signed v := by
    intro v
    rw [putpadValue, if_pos rfl]
    unfold signed
    split_ifs
    · exact BitVec.toInt_signExtend_of_le (by decide)
    · rfl
  have hunsigned : ∀ v,
      (if ¬d.length = 0 then v else (v.setWidth 32).setWidth 64 : BitVec 64).toNat = d.unsigned v := by
    intro v
    unfold unsigned
    split_ifs with h0
    · rw [BitVec.toNat_setWidth_of_le (by decide)]
    · rfl
  have hnat : ∀ v, putpadValue false (if ¬d.length = 0 then v else (v.setWidth 32).setWidth 64) = d.unsigned v :=
    fun v => congrArg Nat.cast (hunsigned v)
  unfold putConversion print
  simp only [hlong, hnum, hhex, hptr, hsigned, hnat, hunsigned]
  split_ifs
  all_goals rcases args with _ | ⟨_ | v, args⟩ <;> rfl

end Conversion

/-! ## Formats -/

/-- A round that meets a conversion. -/
theorem printfLoop_body (d : Conversion) (n : Nat) (rest : List UInt8) (args : List Arg) :
    printfLoop ⟨putpad, puthex⟩ (n + 1) (chr '%' :: (d.body ++ rest)) args =
      (d.print args >>= fun r => printfLoop ⟨putpad, puthex⟩ n rest r.2 >>= fun r' => .ok (r.1 ++ r'.1, r'.2)) := by
  obtain ⟨w, h2, hw⟩ := d.parseWidth_body rest
  rw [printfLoop, fmtChar, ok_bind, if_neg (by decide), if_pos rfl, List.tail_cons, Conversion.parseFlags_body,
    ok_bind]
  dsimp only
  rw [h2, ok_bind]
  dsimp only
  rw [Conversion.parseLength_suffix, ok_bind, fmtChar, ok_bind]
  dsimp only
  rw [Conversion.putConversion_eq hw]
  rfl

theorem printfLoop_source (ps : List Piece) (hn : (source ps).length < n) (args : List Arg) :
    printfLoop ⟨putpad, puthex⟩ n (source ps ++ [0]) args = (render ps args).map fun text => (text, [0]) := by
  induction ps generalizing n args with
  | nil =>
      obtain ⟨n, rfl⟩ := Nat.exists_eq_succ_of_ne_zero (Nat.ne_zero_of_lt hn)
      rfl
  | cons p ps ih =>
      obtain ⟨n, rfl⟩ := Nat.exists_eq_succ_of_ne_zero (Nat.ne_zero_of_lt hn)
      cases p with
      | char c h0 hc =>
          rw [source, List.length_cons] at hn
          rw [source, List.cons_append, printfLoop_char h0 hc, ih (by omega), render]
          cases render ps args <;> rfl
      | conversion d =>
          rw [source, List.length_cons, List.length_append] at hn
          rw [source, List.cons_append, List.append_assoc, printfLoop_body, render]
          cases d.print args with
          | error e => rfl
          | ok r =>
              obtain ⟨text, args⟩ := r
              rw [ok_bind, ok_bind, ih (by omega)]
              dsimp only
              cases render ps args <;> rfl

/-! ## Reading a format -/

theorem source_injective : Function.Injective source := by
  intro ps qs h
  induction ps generalizing qs with
  | nil =>
      cases qs with
      | nil => rfl
      | cons q qs => cases q <;> cases h
  | cons p ps ih =>
      cases qs with
      | nil => cases p <;> cases h
      | cons q qs =>
          cases p with
          | char c h0 hc =>
              cases q with
              | char c' h0' hc' =>
                  obtain ⟨rfl, hps⟩ := List.cons.inj h
                  rw [ih hps]
              | conversion d' => exact absurd (List.cons.inj h).1 hc
          | conversion d =>
              cases q with
              | char c' h0' hc' => exact absurd (List.cons.inj h).1.symm hc'
              | conversion d' =>
                  obtain ⟨rfl, hps⟩ := Conversion.body_inj (List.cons.inj h).2
                  rw [ih hps]

/-- The characters of a conversion that is not cut off. -/
theorem exists_body (h : behindModifiers fmt = spec :: rest) (h0 : 0 ∉ fmt) :
    ∃ d : Conversion, fmt = d.body ++ rest := by
  have hspec0 := (behindModifiers_cons h h0).1
  have hdigits : ∀ c ∈ fmt.takeWhile isDigit, isDigit c := fun c hc => List.mem_takeWhile_imp hc
  have hcut := List.takeWhile_append_dropWhile (p := isDigit) (l := fmt)
  -- the length modifier
  obtain ⟨k, hk, htail, hmod, hdig⟩ : ∃ k ≤ 2, fmt.dropWhile isDigit = List.replicate k (chr 'l') ++ spec :: rest ∧
      (k < 2 → spec ≠ chr 'l') ∧ (k = 0 → ¬isDigit spec) := by
    have hhead := List.head?_dropWhile_not isDigit fmt
    unfold behindModifiers at h
    generalize fmt.dropWhile isDigit = tail at h hhead
    cases tail with
    | nil => cases h
    | cons c tail =>
        by_cases hc : c = chr 'l'
        · subst hc
          cases tail with
          | nil => cases h
          | cons c tail =>
              by_cases hc : c = chr 'l'
              · subst hc
                exact ⟨2, Nat.le_refl 2, congrArg (chr 'l' :: chr 'l' :: ·) h, by omega, by omega⟩
              · simp only [List.head?_cons, List.tail_cons, Option.some.injEq, hc, if_true, if_false] at h
                refine ⟨1, by decide, congrArg (chr 'l' :: ·) h, fun _ => ?_, by omega⟩
                rw [← (List.cons.inj h).1]
                exact hc
        · simp only [List.head?_cons, Option.some.injEq, hc, if_false] at h
          obtain ⟨rfl, rfl⟩ := List.cons.inj h
          exact ⟨0, by decide, rfl, fun _ => hc, fun _ => by simpa using hhead⟩
  rw [htail] at hcut
  -- the flag
  obtain ⟨z, width, hw, hflag, hdw⟩ : ∃ z width, fmt.takeWhile isDigit = (if z then [chr '0'] else []) ++ width ∧
      (z = false → width.head? ≠ some (chr '0')) ∧ ∀ c ∈ width, isDigit c := by
    cases hd : fmt.takeWhile isDigit with
    | nil => exact ⟨false, [], rfl, by decide, fun c hc => absurd hc List.not_mem_nil⟩
    | cons c ds =>
        rw [hd] at hdigits
        by_cases hc : c = chr '0'
        · subst hc
          exact ⟨true, ds, rfl, fun h => (by cases h), fun c hc => hdigits c (List.mem_cons_of_mem _ hc)⟩
        · exact ⟨false, c :: ds, rfl, fun _ he => hc (Option.some.inj he), hdigits⟩
  refine ⟨⟨z, width, k, spec, hdw, hflag, hk, hspec0, hdig, hmod⟩, ?_⟩
  rw [← hcut, hw]
  simp only [Conversion.body, Conversion.suffix, List.append_assoc, List.singleton_append]

/-- In front of the modifier there are digits only. -/
theorem Conversion.exists_digits (d : Conversion) : ∃ digs, d.body = digs ++ d.suffix ∧ ∀ c ∈ digs, isDigit c := by
  refine ⟨_, (List.append_assoc ..).symm, fun c hc => ?_⟩
  rcases List.mem_append.mp hc with hc | hc
  · split at hc
    · rw [List.mem_singleton.mp hc]
      decide
    · exact absurd hc List.not_mem_nil
  · exact d.isDigit_width c hc

theorem Conversion.zero_not_mem_body (d : Conversion) : 0 ∉ d.body := by
  obtain ⟨digs, hb, hd⟩ := d.exists_digits
  intro h
  rw [hb, suffix, List.mem_append, List.mem_append, List.mem_singleton] at h
  rcases h with h | h | h
  · exact (digit_char (v := 0) (hd 0 h)).1 rfl
  · exact absurd (List.eq_of_mem_replicate h) (by decide)
  · exact d.spec_ne_zero h.symm

theorem Conversion.behindModifiers_body (d : Conversion) (rest : List UInt8) :
    behindModifiers (d.body ++ rest) = d.spec :: rest := by
  have hdrop : (d.body ++ rest).dropWhile isDigit = d.suffix ++ rest := by
    obtain ⟨digs, hb, hd⟩ := d.exists_digits
    rw [hb, List.append_assoc, List.dropWhile_append_of_pos hd]
    obtain ⟨c, l, hl⟩ := List.exists_cons_of_ne_nil (d.suffix_ne_nil rest)
    rw [hl]
    exact List.dropWhile_cons_of_neg (d.suffix_head rest c (by rw [hl]; rfl))
  unfold behindModifiers
  rw [hdrop]
  unfold suffix
  have hl := d.spec_ne_modifier
  have hle := d.length_le
  rcases hk : d.length with _ | _ | _ | k
  · rw [hk] at hl
    simp [hl (by decide)]
  · rw [hk] at hl
    simp [hl (by decide)]
  · rfl
  · omega

theorem whole_source (ps : List Piece) : 0 ∉ source ps ∧ Whole (source ps) := by
  induction ps with
  | nil => exact ⟨List.not_mem_nil, .nil⟩
  | cons p ps ih =>
      cases p with
      | char c h0 hc => exact ⟨fun h => (List.mem_cons.mp h).elim (fun he => h0 he.symm) ih.1, .char hc ih.2⟩
      | conversion d =>
          refine ⟨fun h => ?_, .conversion (d.behindModifiers_body _) ih.2⟩
          rcases List.mem_cons.mp h with he | h
          · exact absurd he (by decide)
          · exact (List.mem_append.mp h).elim d.zero_not_mem_body ih.1

theorem exists_source (h : Whole fmt) (h0 : 0 ∉ fmt) : ∃ ps, source ps = fmt := by
  induction h with
  | nil => exact ⟨[], rfl⟩
  | char hc h ih =>
      obtain ⟨ps, rfl⟩ := ih fun hm => h0 (List.mem_cons_of_mem _ hm)
      exact ⟨.char _ (fun he => h0 (by simp [he])) hc :: ps, rfl⟩
  | conversion hspec h ih =>
      have h0' := fun hm => h0 (List.mem_cons_of_mem _ hm)
      obtain ⟨ps, rfl⟩ := ih (behindModifiers_cons hspec h0').2.1
      obtain ⟨d, rfl⟩ := exists_body hspec h0'
      exact ⟨.conversion d :: ps, rfl⟩

/-- The formats that are not cut off are lists of pieces in one way, and `uart_printf` and `printf` print the texts
of the pieces, with the numerals of the arguments in their order, until an argument is missing. -/
theorem printf_renders : (∀ fmt, 0 ∉ fmt ∧ Whole fmt ↔ ∃! ps, source ps = fmt) ∧
    ∀ ps args, uartPrintf (source ps ++ [0]) args = (render ps args).map (fun text => (text, [0])) ∧
      printf (source ps ++ [0]) args = (render ps args).map (fun text => (text, [0])) := by
  constructor
  · intro fmt
    constructor
    · rintro ⟨h0, hw⟩
      obtain ⟨ps, rfl⟩ := exists_source hw h0
      exact ⟨ps, rfl, fun qs hq => source_injective hq⟩
    · rintro ⟨ps, rfl, -⟩
      exact whole_source ps
  · intro ps args
    have hn : (source ps).length < (source ps ++ [0]).length + 1 := by simp
    exact ⟨printfLoop_source ps hn args, printfLoop_source ps hn args⟩

end RiscvOs
