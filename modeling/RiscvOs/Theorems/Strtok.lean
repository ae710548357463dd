import RiscvOs.Theorems.Editor
import RiscvOs.Lib.Words

/-!
# The words of a line

`strtok` keeps a cursor between its calls. The text from the cursor on is split into the words that are still to
come, and what lies in front of the cursor stays as it is.
-/

namespace RiscvOs.Shell

open ByteMem CString Words

/-- `strtok(str, delim)` and then `strtok(NULL, delim)`, `k` calls in all. -/
def strtokCalls (n : Nat) (delim : List UInt8) (s : State) (str : Nat) : Nat → List Nat × State
  | 0 => ([], s)
  | k + 1 =>
    let (token, s) := strtok n s str delim
    let (tokens, s) := strtokCalls n delim s 0 k
    (token :: tokens, s)

/-- Where the calls for the line at `a` stand: at place `o`, with the words `ws` to come. -/
inductive Cursor (n a : Nat) (d : List UInt8) (s : State) : Nat → List (Nat × List UInt8) → Prop
  | null {o : Nat} (h : s.saved = 0) : Cursor n a d s o []
  | text {o : Nat} {l : List UInt8} {ws : List (Nat × List UInt8)} (h0 : a + o ≠ 0) (hs : s.saved = a + o)
      (hn : l.length ≤ n) (hl : StrAt s.mem (a + o) l) (h : Splits (d.contains ·) o l ws) : Cursor n a d s o ws

variable {m : Mem} {n a o j k line : Nat} {d str w : List UInt8} {s s' : State} {ws : List (Nat × List UInt8)}

/-! ## One call -/

theorem zero_not_mem (h : StrAt m a str) : ∀ c ∈ str, c ≠ 0 := by
  induction str generalizing a with
  | nil => exact fun c hc => absurd hc List.not_mem_nil
  | cons d str ih =>
      intro c hc
      rcases List.mem_cons.mp hc with rfl | hc
      · exact h.2.1
      · exact ih h.2.2 c hc

theorem scan_word {p : UInt8 → Bool} {rest : List UInt8} (h : StrAt m a (w ++ rest)) (hn : (w ++ rest).length ≤ n)
    (hw : ∀ c ∈ w, p c = true) (hrest : ∀ c ∈ rest.head?, p c = false) :
    scan m (fun c => c != 0 && p c) n a = a + w.length := by
  have h0 := zero_not_mem h
  rw [scan_eq h hn rfl, Words.takeWhile_append (fun c hc => ?_) fun c hc => ?_]
  · simp [hw c hc, h0 c (List.mem_append_left _ hc)]
  · simp [hrest c hc]

theorem strtok_null (h : s.saved = 0) : strtok n s 0 d = (0, s) := by
  obtain ⟨m, saved⟩ := s
  obtain rfl : saved = 0 := h
  rfl

/-- No word is left. -/
theorem Cursor.strtok_nil (h : Cursor n a d s o []) :
    ∃ s' o', strtok n s 0 d = (0, s') ∧ s'.mem = s.mem ∧ o ≤ o' ∧ Cursor n a d s' o' [] := by
  generalize hws : ([] : List (Nat × List UInt8)) = ws at h
  cases h with
  | null h => exact ⟨s, o, strtok_null h, rfl, Nat.le_refl o, .null h⟩
  | @text l _ h0 hs hn hl h =>
      cases h with
      | done hall =>
          have htoken : scan s.mem (fun c => c != 0 && d.contains c) n (a + o) = a + o + l.length := by
            rw [← List.append_nil l] at hl hn
            exact scan_word hl hn hall (fun c hc => by cases hc)
          refine ⟨{ s with saved := a + o + l.length }, o + l.length, ?_, rfl, Nat.le_add_right ..,
            .text (l := []) (by omega) (Nat.add_assoc ..) n.zero_le ?_ (.done fun c hc => absurd hc List.not_mem_nil)⟩
          · unfold strtok
            simp only [ne_eq, not_true_eq_false, ↓reduceIte, hs, h0, htoken, hl.last]
          · rw [← Nat.add_assoc]
            exact strAt_nil.mpr hl.last
      | word => cases hws

/-- The next word is at place `j`. -/
theorem Cursor.strtok_cons (h : Cursor n a d s o ((j, w) :: ws)) :
    ∃ s', strtok n s 0 d = (a + j, s') ∧ o ≤ j ∧ a + j ≠ 0 ∧ StrAt s'.mem (a + j) w ∧
      (∀ x < a + j + w.length, s'.mem x = s.mem x) ∧ Cursor n a d s' (j + w.length + 1) ws := by
  generalize hws : (j, w) :: ws = ws' at h
  cases h with
  | null => cases hws
  | text h0 hs hn hl h =>
      cases h with
      | done => cases hws
      | @word _ pre v rest ws' hpre hv hall hrest h =>
          cases hws
          have hlen : (w ++ rest).length ≤ n := by
            rw [List.length_append] at hn
            omega
          have htoken : scan s.mem (fun c => c != 0 && d.contains c) n (a + o) = a + o + pre.length :=
            scan_word hl hn hpre (Words.head_word hv hall)
          have htext := hl.drop
          have hend : scan s.mem (fun c => c != 0 && !d.contains c) n (a + o + pre.length) =
              a + o + pre.length + w.length :=
            scan_word htext hlen (fun c hc => by simpa using hall c hc) fun c hc => by simpa using hrest c hc
          have hfirst : s.mem (a + o + pre.length) ≠ 0 := by
            cases w with
            | nil => exact absurd rfl hv
            | cons c w =>
                rw [htext.1]
                exact htext.2.1
          have hbehind := htext.drop
          have hj : a + (o + pre.length) = a + o + pre.length := by omega
          cases rest with
          | nil =>
              have hnul : s.mem (a + o + pre.length + w.length) = 0 := strAt_nil.mp hbehind
              rw [List.append_nil] at htext
              refine ⟨{ s with saved := 0 }, ?_, Nat.le_add_right .., by omega, ?_, fun _ _ => rfl, ?_⟩
              · unfold strtok
                simp only [ne_eq, not_true_eq_false, ↓reduceIte, hs, h0, htoken, hfirst, hend, hnul, hj]
              · rw [hj]
                exact htext
              · rw [h.nil]
                exact .null rfl
          | cons c rest =>
              have hc : d.contains c = true := hrest c rfl
              have hne : s.mem (a + o + pre.length + w.length) ≠ 0 := by
                rw [hbehind.1]
                exact hbehind.2.1
              refine ⟨⟨Function.update s.mem (a + o + pre.length + w.length) 0, a + o + pre.length + w.length + 1⟩,
                ?_, Nat.le_add_right .., by omega, ?_, fun x hx => ?_, ?_⟩
              · unfold strtok
                simp only [ne_eq, not_true_eq_false, ↓reduceIte, hs, h0, htoken, hfirst, hend, hne,
                  not_false_eq_true, hj]
              · rw [hj]
                exact htext.cut
              · exact Function.update_of_ne (by omega) ..
              · refine .text (by omega) (by simp only; omega) ?_ ?_ (h.tail hc)
                · rw [List.length_append, List.length_cons] at hlen
                  omega
                · have hplace : a + (o + pre.length + w.length + 1) = a + o + pre.length + w.length + 1 := by omega
                  rw [hplace]
                  exact hbehind.2.2.congr fun x hx _ => Function.update_of_ne (by omega) ..

/-! ## All calls -/

theorem Cursor.calls (h : Cursor n a d s o ws) (k : Nat) :
    ∃ s', strtokCalls n d s 0 k = ((ws.map (a + ·.1)).take k ++ List.replicate (k - ws.length) 0, s') ∧
      (∀ x < a + o, s'.mem x = s.mem x) ∧ ∀ y ∈ ws.take k, StrAt s'.mem (a + y.1) y.2 := by
  induction k generalizing s o ws with
  | zero => exact ⟨s, by simp [strtokCalls], fun _ _ => rfl, fun y hy => by simp at hy⟩
  | succ k ih =>
      unfold strtokCalls
      cases ws with
      | nil =>
          obtain ⟨s₁, o₁, h1, hm, ho, hc⟩ := h.strtok_nil
          obtain ⟨s₂, h2, hframe, -⟩ := ih hc
          rw [h1]
          simp only [h2]
          refine ⟨s₂, by simp [List.replicate_succ], fun x hx => ?_, fun y hy => by simp at hy⟩
          rw [hframe x (by omega), hm]
      | cons y ws =>
          obtain ⟨j, w⟩ := y
          obtain ⟨s₁, h1, ho, -, hstr, hm, hc⟩ := h.strtok_cons
          obtain ⟨s₂, h2, hframe, hall⟩ := ih hc
          rw [h1]
          simp only [h2]
          refine ⟨s₂, by simp, fun x hx => ?_, ?_⟩
          · rw [hframe x (by omega), hm x (by omega)]
          · rw [List.take_succ_cons]
            refine List.forall_mem_cons.mpr ⟨?_, hall⟩
            exact hstr.congr fun x _ hx => hframe x (by omega)

/-- The first call is given the line. -/
theorem strtok_str (ha : a ≠ 0) : strtok n s a d = strtok n { s with saved := a } 0 d := by
  unfold strtok
  simp only [ne_eq, ha, not_false_eq_true, ↓reduceIte, not_true_eq_false]

theorem Cursor.start (ha : a ≠ 0) (h : StrAt s.mem a str) (hn : str.length ≤ n) (hws : Splits (d.contains ·) 0 str ws) :
    Cursor n a d { s with saved := a } 0 ws := .text ha rfl hn h hws

/-! ## The arguments of a program -/

/-- The loop of the shell takes the first words. -/
theorem Cursor.collect (h : Cursor maxLine a (ascii " ") s o ws) (k : Nat) {token : Nat}
    (hs : strtok maxLine s 0 (ascii " ") = (token, s')) :
    (Shell.collect s' token k).1 = (ws.map (a + ·.1)).take k ∧
      (∀ x < a + o, (Shell.collect s' token k).2.mem x = s.mem x) ∧
      ∀ y ∈ ws.take k, StrAt (Shell.collect s' token k).2.mem (a + y.1) y.2 := by
  induction k generalizing s s' o ws token with
  | zero =>
      refine ⟨by simp [Shell.collect], fun x hx => ?_, fun y hy => by simp at hy⟩
      cases ws with
      | nil =>
          obtain ⟨s₁, o₁, h1, hm, -⟩ := h.strtok_nil
          cases h1.symm.trans hs
          exact congrFun hm x
      | cons y ws =>
          obtain ⟨j, w⟩ := y
          obtain ⟨s₁, h1, ho, -, -, hm, -⟩ := h.strtok_cons
          cases h1.symm.trans hs
          exact hm x (by omega)
  | succ k ih =>
      unfold Shell.collect
      cases ws with
      | nil =>
          obtain ⟨s₁, o₁, h1, hm, -⟩ := h.strtok_nil
          cases h1.symm.trans hs
          exact ⟨rfl, fun x _ => congrFun hm x, fun y hy => by simp at hy⟩
      | cons y ws =>
          obtain ⟨j, w⟩ := y
          obtain ⟨s₁, h1, ho, hj, hstr, hm, hc⟩ := h.strtok_cons
          cases h1.symm.trans hs
          rw [if_neg hj]
          rcases hn : strtok maxLine s' 0 (ascii " ") with ⟨next, s₂⟩
          obtain ⟨hargv, hframe, hall⟩ := ih hc hn
          refine ⟨?_, fun x hx => ?_, ?_⟩
          · simp only [hargv, List.map_cons, List.take_succ_cons]
          · rw [hframe x (by omega), hm x (by omega)]
          · rw [List.take_succ_cons]
            refine List.forall_mem_cons.mpr ⟨?_, hall⟩
            exact hstr.congr fun x _ hx => hframe x (by omega)

/-! ## The name of the file -/

theorem strcpy_eq {dst src : Nat} (h : StrAt m src w) (hn : w.length < n)
    (hd : src + w.length < dst ∨ dst + w.length < src) :
    strcpy m dst src n = write m dst (w.length + 1) fun i => w.getD i 0 := by
  induction w generalizing m dst src n with
  | nil =>
      obtain ⟨n, rfl⟩ := Nat.exists_eq_succ_of_ne_zero (Nat.ne_zero_of_lt hn)
      rw [strcpy, if_pos (strAt_nil.mp h), List.length_nil, ← write_update_first, write_zero]
      rfl
  | cons c w ih =>
      obtain ⟨n, rfl⟩ := Nat.exists_eq_succ_of_ne_zero (Nat.ne_zero_of_lt hn)
      obtain ⟨hc, h0, hw⟩ := h
      rw [List.length_cons] at hn hd
      have hw' : StrAt (Function.update m dst c) (src + 1) w :=
        hw.congr fun x _ _ => Function.update_of_ne (by omega) ..
      have hfirst := @write_update_first m dst (w.length + 1) fun i => (c :: w).getD i 0
      rw [strcpy, hc, if_neg h0, ih hw' (by omega) (by omega), List.length_cons, ← hfirst]
      rfl

/-- The name fits in its buffer. -/
theorem putFilename_outside {filename cmd x : Nat} (h : StrAt m cmd w) (hw : w.length < maxLine)
    (hd : cmd + w.length < filename ∨ filename + (maxLine + 8) ≤ cmd)
    (hx : x < filename ∨ filename + (maxLine + 8) ≤ x) : putFilename m filename cmd x = m x := by
  have hlen : (ascii ".elf").length = 4 := rfl
  have hcopy : strcpy m filename cmd (maxLine + 8) = write m filename (w.length + 1) fun i => w.getD i 0 :=
    strcpy_eq h (by omega) (by omega)
  have hstr : StrAt (write m filename (w.length + 1) fun i => w.getD i 0) filename w := by
    have hbytes : ∀ i < w.length, write m filename (w.length + 1) (fun i => w.getD i 0) (filename + i) = w.getD i 0 :=
      fun i hi => by rw [write_inside (by omega) (by omega), Nat.add_sub_cancel_left]
    have hnul : write m filename (w.length + 1) (fun i => w.getD i 0) (filename + w.length) = 0 := by
      rw [write_inside (by omega) (by omega), Nat.add_sub_cancel_left, List.getD_eq_default _ _ (Nat.le_refl _)]
    have hat := StrAt.of_bytes hbytes hnul
    rwa [List.takeWhile_eq_self_iff.mpr fun c hc => by simpa using zero_not_mem h c hc] at hat
  have hend : scan (write m filename (w.length + 1) fun i => w.getD i 0) (fun c => c != 0) (maxLine + 8) filename =
      filename + w.length := by
    rw [scan_eq hstr (by omega) rfl, List.takeWhile_eq_self_iff.mpr fun c hc => by simpa using zero_not_mem h c hc]
  unfold putFilename strcat
  rw [hcopy, hend, write_outside (by omega), write_outside (by omega)]

/-! ## The words of a line -/

theorem Splits.inside {p : UInt8 → Bool} (h : Splits p 0 str ws) : ∀ y ∈ ws, y.1 + y.2.length ≤ str.length := by
  rintro ⟨j, w⟩ hy
  obtain ⟨pre, post, rfl, rfl, -⟩ := h.mem_iff.mp hy
  rw [List.length_append, List.length_append]
  simp only
  omega

/-- A line that starts a program: its words are taken, and they are there until the call of `exec`. -/
theorem command_words {fs : Initramfs} {canFork : Bool} {filename : List UInt8} {argv : List Nat} (hline : line ≠ 0)
    (h : StrAt s.mem line str) (hn : str.length < maxLine) (hws : Splits ((ascii " ").contains ·) 0 str ws)
    (hc : command fs line s canFork = (.exec filename argv, s')) :
    argv = (ws.map (line + ·.1)).take maxArgs ∧
      ∀ buf, line + maxLine ≤ buf ∨ buf + (maxLine + 8) ≤ line → ∀ y ∈ ws.take maxArgs,
        StrAt (putFilename s'.mem buf (argv.headD 0)) (line + y.1) y.2 := by
  rcases ht : strtok maxLine s line (ascii " ") with ⟨token, s₁⟩
  have hcur := Cursor.start (s := s) hline h hn.le hws
  obtain ⟨hargv, -, hall⟩ := hcur.collect maxArgs ((strtok_str hline).symm.trans ht)
  rcases hcol : collect s₁ token maxArgs with ⟨argv', s₂⟩
  rw [hcol] at hargv hall
  have hres : argv' = argv ∧ s₂ = s' := by
    unfold command at hc
    rw [ht] at hc
    simp only [hcol] at hc
    split at hc
    · cases hc
    · split at hc
      · cases hc
      · split_ifs at hc <;> cases hc
        exact ⟨rfl, rfl⟩
  obtain ⟨rfl, rfl⟩ := hres
  refine ⟨hargv, fun buf hbuf y hy => ?_⟩
  cases ws with
  | nil => simp at hy
  | cons z ws =>
      have hinside := Splits.inside hws
      have hz : StrAt s₂.mem (line + z.1) z.2 := hall z (by simp [maxArgs])
      have hcmd : argv'.headD 0 = line + z.1 := by
        rw [show argv' = _ from hargv]
        rfl
      have hzlen := hinside z (List.mem_cons_self ..)
      have hylen := hinside y (List.mem_of_mem_take hy)
      rw [hcmd]
      exact (hall y hy).congr fun x _ hx => putFilename_outside hz (by omega) (by omega) (by omega)

/-- The calls of `strtok` for a line give its words in their order, each as a string in the line, and then NULL.
The arguments that the shell hands over to a program are the first words of the line it has read. -/
theorem strtok_words :
    (∀ (n a : Nat) (d str : List UInt8) (s : State), a ≠ 0 → StrAt s.mem a str → str.length ≤ n →
      ∃ ws : List (Nat × List UInt8), (ws.Pairwise fun x y => x.1 + x.2.length ≤ y.1) ∧
        (∀ j w, (j, w) ∈ ws ↔ IsWord (d.contains ·) 0 str j w) ∧
        ∀ k, ∃ s', strtokCalls n d s a k = ((ws.map (a + ·.1)).take k ++ List.replicate (k - ws.length) 0, s') ∧
          ∀ y ∈ ws.take k, StrAt s'.mem (a + y.1) y.2) ∧
    ∀ (fs : Initramfs) (line : Nat) (s s' : State) (keys rest filename : List UInt8) (canFork : Bool) (argv : List Nat),
      line ≠ 0 → round fs line s keys canFork = (.exec filename argv, s', rest) →
      ∃ (m : Mem) (str : List UInt8) (ws : List (Nat × List UInt8)), readLine line s.mem 0 keys = some (m, rest) ∧
        StrAt m line str ∧ (ws.Pairwise fun x y => x.1 + x.2.length ≤ y.1) ∧
        (∀ j w, (j, w) ∈ ws ↔ IsWord ((ascii " ").contains ·) 0 str j w) ∧
        argv = (ws.map (line + ·.1)).take maxArgs ∧
        ∀ buf, line + maxLine ≤ buf ∨ buf + (maxLine + 8) ≤ line → ∀ y ∈ ws.take maxArgs,
          StrAt (putFilename s'.mem buf (argv.headD 0)) (line + y.1) y.2 := by
  constructor
  · intro n a d str s ha h hn
    obtain ⟨ws, hws⟩ := exists_splits (d.contains ·) 0 str
    refine ⟨ws, hws.sorted, fun j w => hws.mem_iff, fun k => ?_⟩
    obtain ⟨s', hcalls, -, hall⟩ := (Cursor.start ha h hn hws).calls k
    cases k with
    | zero => exact ⟨s, by simp [strtokCalls], fun y hy => by simp at hy⟩
    | succ k =>
        refine ⟨s', ?_, hall⟩
        rw [← hcalls, strtokCalls, strtok_str ha]
        rfl
  · intro fs line s s' keys rest filename canFork argv hline hround
    have hempty : Filled s.mem line [] := ⟨fun i hi => absurd hi (Nat.not_lt_zero i), by decide⟩
    have hread := readLine_spec keys hempty
    unfold round at hround
    cases ht : typed [] keys with
    | none =>
        rw [ht] at hread
        rw [show readLine line s.mem 0 keys = none from hread] at hround
        cases hround
    | some r =>
        obtain ⟨l, rest'⟩ := r
        rw [ht] at hread
        obtain ⟨m, hr, hend⟩ := hread
        have hr' : readLine line s.mem 0 keys = some (m, rest') := hr
        rw [hr'] at hround
        rcases hc : command fs line { s with mem := m } canFork with ⟨outcome, s₂⟩
        simp only [hc, Prod.mk.injEq] at hround
        obtain ⟨rfl, rfl, rfl⟩ := hround
        obtain ⟨ws, hws⟩ := exists_splits ((ascii " ").contains ·) 0 (l.takeWhile (· != 0))
        have hlen : (l.takeWhile (· != 0)).length < maxLine := (List.takeWhile_prefix _).length_le.trans_lt hend.room
        obtain ⟨hargv, hall⟩ := command_words (s := { s with mem := m }) hline hend.strAt hlen hws hc
        exact ⟨m, _, ws, hr', hend.strAt, hws.sorted, fun j w => hws.mem_iff, hargv, hall⟩

/-- Two words with spaces around them, and a program that is given an argument. -/
theorem strtok_words_two :
    (∃ ws : List (Nat × List UInt8), (∀ j w, (j, w) ∈ ws ↔ IsWord ((ascii " ").contains ·) 0 (ascii "a  b ") j w) ∧
      ∀ k, ∃ s', strtokCalls 5 (ascii " ") ⟨fun x => (ascii "a  b ").getD (x - 1) 0, 0⟩ 1 k =
        ((ws.map (1 + ·.1)).take k ++ List.replicate (k - ws.length) 0, s')) ∧
    ∃ (m : Mem) (str : List UInt8) (ws : List (Nat × List UInt8)),
      readLine 0x101ff00 (fun _ => 0) 0 (ascii "x y" ++ [13]) = some (m, []) ∧ StrAt m 0x101ff00 str ∧
        (∀ j w, (j, w) ∈ ws ↔ IsWord ((ascii " ").contains ·) 0 str j w) ∧
        [0x101ff00, 0x101ff02] = (ws.map (0x101ff00 + ·.1)).take maxArgs := by
  constructor
  · obtain ⟨ws, -, hmem, hcalls⟩ := strtok_words.1 5 1 (ascii " ") (ascii "a  b ")
      ⟨fun x => (ascii "a  b ").getD (x - 1) 0, 0⟩ (by decide) (by simp [ascii]) (by decide)
    exact ⟨ws, hmem, fun k => (hcalls k).imp fun _ h => h.1⟩
  · have hexec : (round [(ascii "x.elf", tinyElf)] 0x101ff00 ⟨fun _ => 0, 0⟩ (ascii "x y" ++ [13]) true).1 =
        .exec (ascii "x.elf") [0x101ff00, 0x101ff02] := by decide +kernel
    have hrest : (round [(ascii "x.elf", tinyElf)] 0x101ff00 ⟨fun _ => 0, 0⟩ (ascii "x y" ++ [13]) true).2.2 = [] := by
      decide +kernel
    obtain ⟨m, str, ws, h1, h2, -, h3, h4, -⟩ := strtok_words.2 _ 0x101ff00 ⟨fun _ => 0, 0⟩ _ _ [] _ true _
      (by decide) (Prod.ext hexec (Prod.ext rfl hrest))
    exact ⟨m, str, ws, h1, h2, h3, h4⟩

end RiscvOs.Shell
