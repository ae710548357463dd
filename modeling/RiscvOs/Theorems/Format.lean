import RiscvOs.Theorems.Malloc
import RiscvOs.Format

/-!
# Formatted output stays in its buffer

A format and its arguments have one text. `kvnprintf` writes the beginning of it that fits, and a 0 behind it.
-/

namespace RiscvOs

open ByteMem

variable {base n value buf lim size : Nat} {v : BitVec 32} {o : Sink} {c spec : UInt8} {s fmt text : List UInt8}
  {args : List Arg} {m : Mem}

/-! ## Numbers -/

theorem digits_ne_zero (h : value < 16) : digits.getD value 0 ≠ 0 := by
  revert h value
  decide

/-- A number of `n` digits needs `n` places. -/
theorem itoaLoop_spec {k : Nat} (hb : 2 ≤ base) (hb' : base ≤ 16) (hv : value < base ^ n) (h0 : 0 < n) (hk : n ≤ k) :
    ∃ s, itoaLoop base k value = .ok s ∧ s.length ≤ n ∧ 0 ∉ s := by
  induction n generalizing value k with
  | zero => cases h0
  | succ n ih =>
      obtain ⟨k, rfl⟩ : ∃ j, k = j + 1 := ⟨k - 1, by omega⟩
      have hd : digits.getD (value % base) 0 ≠ 0 :=
        digits_ne_zero (Nat.lt_of_lt_of_le (Nat.mod_lt _ (by omega)) hb')
      rw [itoaLoop]
      by_cases hz : value / base = 0
      · rw [if_pos hz]
        exact ⟨_, rfl, Nat.succ_le_succ n.zero_le, fun h => hd (List.mem_singleton.mp h).symm⟩
      · have hn : 0 < n := by
          by_contra h
          obtain rfl : n = 0 := by omega
          exact hz (Nat.div_eq_of_lt (by simpa using hv))
        obtain ⟨s, hs, hlen, h0⟩ := ih (Nat.div_lt_of_lt_mul (by rwa [Nat.pow_succ'] at hv)) hn (Nat.le_of_succ_le_succ hk)
        rw [if_neg hz, hs]
        refine ⟨_, rfl, Nat.succ_le_succ hlen, fun h => ?_⟩
        rcases List.mem_cons.mp h with h | h
        · exact hd h.symm
        · exact h0 h

theorem itoaUnsigned_spec (hb : 2 ≤ base) (hb' : base ≤ 16) (hv : v.toNat < base ^ n) (h0 : 0 < n) (hn : n ≤ 33) :
    ∃ s, itoaUnsigned v base = .ok s ∧ s.length ≤ n ∧ 0 ∉ s := by
  obtain ⟨s, hs, hlen, h0⟩ := itoaLoop_spec hb hb' hv h0 hn
  refine ⟨s.reverse, ?_, by rwa [List.length_reverse], by rwa [List.mem_reverse]⟩
  rw [itoaUnsigned, if_neg (by omega), hs]
  rfl

theorem itoaUnsigned_ten (v : BitVec 32) : ∃ s, itoaUnsigned v 10 = .ok s ∧ s.length ≤ 10 ∧ 0 ∉ s :=
  itoaUnsigned_spec (by decide) (by decide) (Nat.lt_trans v.isLt (by decide)) (by decide) (by decide)

theorem itoaUnsigned_sixteen (v : BitVec 32) : ∃ s, itoaUnsigned v 16 = .ok s ∧ s.length ≤ 8 ∧ 0 ∉ s :=
  itoaUnsigned_spec (by decide) (by decide) v.isLt (by decide) (by decide)

theorem itoaSigned_ten (v : BitVec 32) : ∃ s, itoaSigned v 10 = .ok s ∧ s.length ≤ 11 ∧ 0 ∉ s := by
  unfold itoaSigned
  rw [if_neg (by decide)]
  split
  · obtain ⟨s, hs, hlen, h0⟩ := itoaUnsigned_ten (-v)
    rw [hs]
    refine ⟨_, rfl, Nat.succ_le_succ hlen, fun h => ?_⟩
    rcases List.mem_cons.mp h with h | h
    · exact absurd h (by decide)
    · exact h0 h
  · obtain ⟨s, hs, hlen, h0⟩ := itoaUnsigned_ten v
    exact ⟨s, hs, Nat.le_succ_of_le hlen, h0⟩

theorem inTmp_ok (h : s.length < 33) : inTmp s = .ok s := if_pos h

/-! ## Characters -/

/-- A string is output up to its 0. -/
theorem putStr_eq : putStr buf lim o s = o.emit buf lim (s.takeWhile (· ≠ 0)) := by
  induction s generalizing o with
  | nil => rfl
  | cons c s ih =>
      rw [putStr]
      by_cases hc : c = 0
      · rw [if_neg fun h => h.1 hc, List.takeWhile_cons_of_neg (by simp [hc])]
        rfl
      · rw [List.takeWhile_cons_of_pos (by simp [hc])]
        by_cases h : o.i < lim
        · rw [if_pos ⟨hc, h⟩, ih, Sink.emit_cons h]
        · rw [if_neg fun hh => h hh.2, Sink.emit_of_full h]

theorem putStr_eq_of_not_mem (h : 0 ∉ s) : putStr buf lim o s = o.emit buf lim s := by
  rw [putStr_eq, List.takeWhile_eq_self_iff.mpr fun c hc => by simpa using fun h0 : c = 0 => h (h0 ▸ hc)]

theorem putIf_eq : putIf buf lim o c = o.emit buf lim [c] := rfl

theorem put_eq (h : o.i < lim) : o.put buf c = o.emit buf lim [c] := by
  rw [Sink.emit_cons h]
  rfl

/-! ## Matching arguments -/

def Arg.isStr : Arg → Bool
  | .str _ => true
  | .num _ => false

/-- The argument of a conversion: is it a string? -/
def takes (spec : UInt8) : List Bool :=
  if spec = chr 's' then [true]
  else if spec ∈ [chr 'd', chr 'u', chr 'x', chr 'p', chr 'c'] then [false]
  else []

/-- The arguments of all conversions of a format. -/
def signature : List UInt8 → List Bool
  | [] | [_] => []
  | c :: spec :: fmt =>
    if c = 0 then []
    else if c = chr '%' ∧ spec ≠ 0 then takes spec ++ signature fmt
    else signature (spec :: fmt)

/-- Each conversion finds an argument of its kind. -/
def Matches (fmt : List UInt8) (args : List Arg) : Prop := signature fmt <+: args.map Arg.isStr

theorem exists_num {l : List Bool} (h : false :: l <+: args.map Arg.isStr) :
    ∃ v rest, args = .num v :: rest ∧ l <+: rest.map Arg.isStr := by
  cases args with
  | nil => simp at h
  | cons a rest =>
      obtain ⟨ha, hl⟩ := List.cons_prefix_cons.mp h
      cases a with
      | str s => cases ha
      | num v => exact ⟨v, rest, rfl, hl⟩

theorem exists_str {l : List Bool} (h : true :: l <+: args.map Arg.isStr) :
    ∃ s rest, args = .str s :: rest ∧ l <+: rest.map Arg.isStr := by
  cases args with
  | nil => simp at h
  | cons a rest =>
      obtain ⟨ha, hl⟩ := List.cons_prefix_cons.mp h
      cases a with
      | num v => cases ha
      | str s => exact ⟨s, rest, rfl, hl⟩

/-! ## The text of a format -/

/-- A number is output by way of `tmp`. -/
theorem putTmp_eq {r : Except Halt (List UInt8)} {rest : List Arg} (hr : r = .ok s) (hlen : s.length < 33)
    (h0 : 0 ∉ s) :
    (do
      let tmp ← inTmp (← r)
      .ok (putStr buf lim o tmp, rest) : Except Halt (Sink × List Arg)) = .ok (o.emit buf lim s, rest) := by
  rw [hr, Outcome.ok_bind, inTmp_ok hlen, Outcome.ok_bind, putStr_eq_of_not_mem h0]

/-- A conversion outputs a text that depends on its argument only. -/
theorem convert_spec {l : List Bool} (h : takes spec ++ l <+: args.map Arg.isStr) :
    ∃ text rest, l <+: rest.map Arg.isStr ∧
      ∀ buf lim (o : Sink), o.i < lim → convert buf lim o spec args = .ok (o.emit buf lim text, rest) := by
  unfold takes at h
  unfold convert
  by_cases hs : spec = chr 's'
  · rw [if_pos hs] at h
    obtain ⟨s, rest, rfl, hl⟩ := exists_str h
    refine ⟨(s.getD []).takeWhile (· ≠ 0), rest, hl, fun buf lim o _ => ?_⟩
    rw [if_pos hs, ← putStr_eq]
  rw [if_neg hs] at h
  simp only [if_neg hs]
  by_cases hnum : spec ∈ [chr 'd', chr 'u', chr 'x', chr 'p', chr 'c']
  · rw [if_pos hnum] at h
    obtain ⟨v, rest, rfl, hl⟩ := exists_num h
    obtain ⟨u, hu, hulen, hu0⟩ := itoaUnsigned_ten (v.setWidth 32)
    obtain ⟨x, hx, hxlen, hx0⟩ := itoaUnsigned_sixteen (v.setWidth 32)
    by_cases hd : spec = chr 'd'
    · obtain ⟨s, hs, hlen, h0⟩ := itoaSigned_ten (v.setWidth 32)
      refine ⟨s, rest, hl, fun buf lim o _ => ?_⟩
      rw [if_pos hd]
      exact putTmp_eq hs (by omega) h0
    simp only [if_neg hd]
    by_cases hspec : spec = chr 'u'
    · refine ⟨u, rest, hl, fun buf lim o _ => ?_⟩
      rw [if_pos hspec]
      exact putTmp_eq hu (by omega) hu0
    simp only [if_neg hspec]
    by_cases hspec : spec = chr 'x'
    · refine ⟨x, rest, hl, fun buf lim o _ => ?_⟩
      rw [if_pos hspec]
      exact putTmp_eq hx (by omega) hx0
    simp only [if_neg hspec]
    by_cases hspec : spec = chr 'p'
    · refine ⟨[chr '0'] ++ ([chr 'x'] ++ x), rest, hl, fun buf lim o ho => ?_⟩
      rw [if_pos hspec, Sink.emit_append, Sink.emit_append, ← put_eq ho, ← putIf_eq]
      exact putTmp_eq hx (by omega) hx0
    simp only [if_neg hspec]
    have hspec : spec = chr 'c' := by simp_all
    refine ⟨[UInt8.ofNat v.toNat], rest, hl, fun buf lim o ho => ?_⟩
    rw [if_pos hspec, put_eq ho]
  · rw [if_neg hnum] at h
    simp only [List.mem_cons, List.not_mem_nil, or_false, not_or] at hnum
    simp only [if_neg hnum.1, if_neg hnum.2.1, if_neg hnum.2.2.1, if_neg hnum.2.2.2.1, if_neg hnum.2.2.2.2]
    by_cases hspec : spec = chr '%'
    · refine ⟨[chr '%'], args, h, fun buf lim o ho => ?_⟩
      rw [if_pos hspec, put_eq ho]
    · refine ⟨[chr '%'] ++ [spec], args, h, fun buf lim o ho => ?_⟩
      rw [if_neg hspec, Sink.emit_append, ← put_eq ho, ← putIf_eq]

/-- The loop outputs a text that does not depend on the buffer. -/
theorem kvnprintfLoop_spec (h : Matches fmt args) :
    ∃ text, ∀ buf lim (o : Sink), kvnprintfLoop buf lim fmt o args = .ok (o.emit buf lim text) := by
  unfold Matches at h
  induction fmt using signature.induct generalizing args with
  | case1 => exact ⟨[], fun _ _ _ => rfl⟩
  | case2 c =>
      refine ⟨if c = 0 then [] else [c], fun buf lim o => ?_⟩
      rw [kvnprintfLoop]
      by_cases hc : c = 0
      · rw [if_neg fun hh => hh.1 hc, if_pos hc]
        rfl
      · rw [if_neg hc]
        by_cases hi : o.i < lim
        · rw [if_pos ⟨hc, hi⟩, put_eq hi]
        · rw [if_neg fun hh => hi hh.2, Sink.emit_of_full hi]
  | case3 spec fmt =>
      refine ⟨[], fun buf lim o => ?_⟩
      rw [kvnprintfLoop, if_pos (.inl rfl)]
      rfl
  | case4 c spec fmt hc hspec ih =>
      rw [signature, if_neg hc, if_pos hspec] at h
      obtain ⟨text, rest, hrest, htext⟩ := convert_spec h
      obtain ⟨text', htext'⟩ := ih hrest
      refine ⟨text ++ text', fun buf lim o => ?_⟩
      rw [kvnprintfLoop]
      by_cases hi : o.i < lim
      · rw [if_neg (by simp [hc, hi]), if_pos hspec, htext buf lim o hi, Outcome.ok_bind, Sink.emit_append]
        exact htext' ..
      · rw [if_pos (.inr hi), Sink.emit_of_full hi]
  | case5 c spec fmt hc hspec ih =>
      rw [signature, if_neg hc, if_neg hspec] at h
      obtain ⟨text, htext⟩ := ih h
      refine ⟨[c] ++ text, fun buf lim o => ?_⟩
      rw [kvnprintfLoop]
      by_cases hi : o.i < lim
      · rw [if_neg (by simp [hc, hi]), if_neg hspec, htext, Sink.emit_append, put_eq hi]
      · rw [if_pos (.inr hi), Sink.emit_of_full hi]

/-! ## Calls -/

/-- A call with a buffer of `size` bytes stores a 0 at index `i`, and nothing outside the buffer. -/
structure InBuffer (buf size : Nat) (m : Mem) (i : Nat) (m' : Mem) : Prop where
  index : i ≤ size - 1
  nul : m' (buf + i) = 0
  outside : ∀ a, a < buf ∨ buf + size ≤ a → m' a = m a

/-- The index as an `int`. -/
theorem toInt_index (h : n < 2 ^ 31) : (BitVec.ofNat 32 n).toInt = n := by
  have hn : (BitVec.ofNat 32 n).toNat = n := by
    rw [BitVec.toNat_ofNat, Nat.mod_eq_of_lt (by omega)]
  rw [BitVec.toInt_eq_toNat_of_lt (by omega), hn]

theorem kvnprintf_of_text (buf : Nat) (m : Mem) (h1 : 1 ≤ size) (hs : size < 2 ^ 64)
    (h : ∀ buf lim (o : Sink), kvnprintfLoop buf lim fmt o args = .ok (o.emit buf lim text)) :
    ∃ m', kvnprintf buf size fmt args m = .ok ((BitVec.ofNat 32 (min (size - 1) text.length)).toInt, m') ∧
      InBuffer buf size m (min (size - 1) text.length) m' ∧
      ∀ j (hj : j < text.length), j < size - 1 → m' (buf + j) = text[j] := by
  have hlim : (size + (2 ^ 64 - 1)) % 2 ^ 64 = size - 1 := by omega
  have hi : (Sink.emit buf (size - 1) ⟨m, 0⟩ text).i = min (size - 1) text.length := by
    rw [Sink.emit_i (Nat.zero_le _), Nat.zero_add]
  refine ⟨Function.update (Sink.emit buf (size - 1) ⟨m, 0⟩ text).mem (buf + min (size - 1) text.length) 0, ?_,
    ⟨Nat.min_le_left .., Function.update_self .., fun a ha => ?_⟩, fun j hj hlt => ?_⟩
  · rw [kvnprintf, hlim, h, Outcome.ok_bind, hi]
  · rw [Function.update_of_ne (by omega)]
    exact Sink.emit_outside (by simp only; omega)
  · rw [Function.update_of_ne (by omega)]
    have hin := @Sink.emit_inside buf (size - 1) ⟨m, 0⟩ text j hj (by simpa using hlt)
    rwa [Nat.zero_add] at hin

/-! ## Lines -/

/-- The calls for a line are given at least one byte each, and they store inside `char buf[512]`. -/
def InLine (buf : Nat) (m : Mem) (r : Except Halt (List Nat × Mem)) : Prop :=
  ∃ sizes m', r = .ok (sizes, m') ∧ (∀ size ∈ sizes, 1 ≤ size) ∧ ∀ a, a < buf ∨ buf + 512 ≤ a → m' a = m a

theorem emergParts_inLine {parts : List (List UInt8 × List Arg)} (pos : Nat) (hm : ∀ p ∈ parts, Matches p.1 p.2)
    (hpos : pos ≤ 511) : InLine buf m (emergParts buf parts pos m) := by
  induction parts generalizing pos m with
  | nil => exact ⟨[], m, rfl, by simp, fun _ _ => rfl⟩
  | cons p parts ih =>
      obtain ⟨fmt, args⟩ := p
      obtain ⟨text, htext⟩ := kvnprintfLoop_spec (hm (fmt, args) List.mem_cons_self)
      have hsize : ((512 - (pos : Int)) % 2 ^ 64).toNat = 512 - pos := by omega
      have hbuf : ((buf : Int) + pos).toNat = buf + pos := by omega
      obtain ⟨m₁, h1, hin, -⟩ := kvnprintf_of_text (buf + pos) m (show 1 ≤ 512 - pos by omega)
        (by omega) htext
      have hi := hin.index
      rw [toInt_index (by omega)] at h1
      obtain ⟨sizes, m₂, h2, hsizes, hout⟩ := ih (m := m₁)
        (pos + min (512 - pos - 1) text.length) (fun q hq => hm q (List.mem_cons_of_mem _ hq)) (by omega)
      refine ⟨(512 - pos) :: sizes, m₂, ?_, List.forall_mem_cons.mpr ⟨?_, hsizes⟩, fun a ha => ?_⟩
      · rw [emergParts, hsize, hbuf, h1, Outcome.ok_bind]
        dsimp only
        rw [← Nat.cast_add, h2]
        rfl
      · omega
      · rw [hout a ha, hin.outside a (by omega)]

theorem matches_level (level : Option (List UInt8)) : Matches (ascii "[%s] ") [.str level] := by
  exact List.prefix_rfl

theorem matches_newline : Matches (ascii "\n") [] := List.nil_prefix

/-- Every call of `kvnprintf` whose arguments match its format stores inside its buffer; the index of the 0 is
the result wherever an `int` can hold it. A smaller buffer gets the beginning of what a larger one gets. The
lines of the emergency console leave room for each of their parts. -/
theorem kvnprintf_bounded (hm : Matches fmt args) :
    (∀ buf size m, 1 ≤ size → size < 2 ^ 64 → ∃ i m',
      kvnprintf buf size fmt args m = .ok ((BitVec.ofNat 32 i).toInt, m') ∧
      (size ≤ 2 ^ 31 → (BitVec.ofNat 32 i).toInt = i) ∧ InBuffer buf size m i m' ∧
      ∀ buf₁ size₁ m₁, size ≤ size₁ → size₁ < 2 ^ 64 → ∃ i₁ m₁',
        kvnprintf buf₁ size₁ fmt args m₁ = .ok ((BitVec.ofNat 32 i₁).toInt, m₁') ∧
        InBuffer buf₁ size₁ m₁ i₁ m₁' ∧ i = min (size - 1) i₁ ∧ ∀ j < i, m' (buf + j) = m₁' (buf₁ + j)) ∧
    ∀ buf m level,
      InLine buf m (virtioEmergLog buf level fmt args m) ∧ InLine buf m (virtioEmergLogVa buf level fmt args m) ∧
      ∀ source pid label, InLine buf m (virtioEmergLogExt buf source pid level label fmt args m) := by
  obtain ⟨text, htext⟩ := kvnprintfLoop_spec hm
  have hlevel : ∀ level, ∀ p ∈ [(ascii "[%s] ", [Arg.str level]), (fmt, args), (ascii "\n", [])],
      Matches p.1 p.2 := fun level => by
    simp only [List.forall_mem_cons, List.not_mem_nil, false_imp_iff, implies_true, and_true]
    exact ⟨matches_level level, hm, matches_newline⟩
  refine ⟨fun buf size m h1 hs => ?_, fun buf m level => ⟨?_, ?_, fun source pid label => ?_⟩⟩
  · obtain ⟨m', h, hin, hbytes⟩ := kvnprintf_of_text buf m h1 hs htext
    refine ⟨_, m', h, fun hle => toInt_index (by have := hin.index; omega), hin, fun buf₁ size₁ m₁ hle hs₁ => ?_⟩
    obtain ⟨m₁', h₁, hin₁, hbytes₁⟩ := kvnprintf_of_text buf₁ m₁ (h1.trans hle) hs₁ htext
    refine ⟨_, m₁', h₁, hin₁, by omega, fun j hj => ?_⟩
    rw [hbytes j (by omega) (by omega), hbytes₁ j (by omega) (by omega)]
  · exact emergParts_inLine 0 (hlevel level) (by decide)
  · exact emergParts_inLine 0 (hlevel level) (by decide)
  · refine emergParts_inLine 0 ?_ (by decide)
    simp only [List.forall_mem_cons, List.not_mem_nil, false_imp_iff, implies_true, and_true]
    exact ⟨List.prefix_rfl, hm, matches_newline⟩

/-- A string and a number that do not fit. -/
theorem kvnprintf_bounded_cut :
    InLine 0x80500000 (fun _ => 0) (virtioEmergLog 0x80500000 (some (ascii "INFO")) (ascii "%s=%d")
      [.str (some (List.replicate 600 (chr 'a'))), .num 5] fun _ => 0) :=
  have hm : Matches (ascii "%s=%d") [.str (some (List.replicate 600 (chr 'a'))), .num 5] := List.prefix_rfl
  ((kvnprintf_bounded hm).2 0x80500000 (fun _ => 0) (some (ascii "INFO"))).1

/-! ## The result -/

/-- A format without conversions is its own text. -/
theorem kvnprintfLoop_literal (args : List Arg) (h : ∀ c ∈ fmt, c ≠ 0 ∧ c ≠ chr '%') :
    signature fmt = [] ∧ ∀ buf lim (o : Sink), kvnprintfLoop buf lim fmt o args = .ok (o.emit buf lim fmt) := by
  induction fmt using signature.induct with
  | case1 => exact ⟨rfl, fun _ _ _ => rfl⟩
  | case2 c =>
      refine ⟨rfl, fun buf lim o => ?_⟩
      rw [kvnprintfLoop]
      by_cases hi : o.i < lim
      · rw [if_pos ⟨(h c (by simp)).1, hi⟩, put_eq hi]
      · rw [if_neg fun hh => hi hh.2, Sink.emit_of_full hi]
  | case3 spec fmt => exact absurd rfl (h 0 (by simp)).1
  | case4 c spec fmt _ hspec => exact absurd hspec.1 (h c (by simp)).2
  | case5 c spec fmt hc hspec ih =>
      obtain ⟨hsig, hloop⟩ := ih fun c hc => h c (List.mem_cons_of_mem _ hc)
      refine ⟨by rw [signature, if_neg hc, if_neg hspec, hsig], fun buf lim o => ?_⟩
      rw [kvnprintfLoop]
      by_cases hi : o.i < lim
      · rw [if_neg (by simp [hc, hi]), if_neg hspec, hloop, Sink.emit_cons hi]
      · rw [if_pos (.inr hi), Sink.emit_of_full hi]

/-- A text of 2 GiB: the result is negative, it is not the index of the 0. -/
theorem kvnprintf_negative : Matches (List.replicate (2 ^ 31) (chr 'a')) [] ∧ ∀ (i : Nat) m',
    kvnprintf 0 (2 ^ 31 + 1) (List.replicate (2 ^ 31) (chr 'a')) [] (fun _ => 0) ≠ .ok ((i : Int), m') := by
  obtain ⟨hsig, hloop⟩ := kvnprintfLoop_literal [] fun c (hc : c ∈ List.replicate (2 ^ 31) (chr 'a')) => by
    rw [List.eq_of_mem_replicate hc]
    decide
  refine ⟨by rw [Matches, hsig]; exact List.nil_prefix, fun i m' h => ?_⟩
  obtain ⟨m₁, h1, -⟩ := kvnprintf_of_text 0 (fun _ => 0) (show 1 ≤ 2 ^ 31 + 1 by decide) (by decide) hloop
  rw [h1, List.length_replicate] at h
  have hneg : (BitVec.ofNat 32 (min (2 ^ 31 + 1 - 1) (2 ^ 31))).toInt = -2 ^ 31 := by decide
  rw [hneg] at h
  simp only [Except.ok.injEq, Prod.mk.injEq] at h
  omega

end RiscvOs
