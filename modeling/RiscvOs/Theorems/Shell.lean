import RiscvOs.Theorems.Heap

/-!
# What the shell starts

The names that are not to be started are compared with the line, and the program is looked up under the
first token of the line. The two agree unless the line begins with a space.
-/

namespace RiscvOs.Shell

open ByteMem CString

variable {m : Mem} {a line pos token n : Nat} {l str keys rest filename : List UInt8} {c : UInt8} {s : State}
  {fs : Initramfs} {canFork : Bool}

/-! ## Editing -/

/-- What a key makes of the line. -/
def edit (l : List UInt8) (c : UInt8) : List UInt8 :=
  if (c = 0x7F ∨ c = 8) ∧ l ≠ [] then l.dropLast else if l.length < maxLine - 1 then l ++ [c] else l

/-- The line that the keys leave at ENTER, and the keys behind it. -/
def typed : List UInt8 → List UInt8 → Option (List UInt8 × List UInt8)
  | _, [] => none
  | l, c :: keys => if c = 13 ∨ c = 10 then some (l, keys) else typed (edit l c) keys

/-- The buffer begins with the bytes of `l`. -/
structure Filled (m : Mem) (line : Nat) (l : List UInt8) : Prop where
  bytes : ∀ i < l.length, m (line + i) = l.getD i 0
  room : l.length < maxLine

theorem readKey_spec (h : Filled m line l) (c : UInt8) :
    ∃ m', readKey line m l.length c = (m', (edit l c).length) ∧ Filled m' line (edit l c) := by
  obtain ⟨hb, hr⟩ := h
  unfold readKey edit
  simp only [gt_iff_lt, List.length_pos_iff]
  split
  · refine ⟨m, by rw [List.length_dropLast], fun i hi => ?_, by rw [List.length_dropLast]; omega⟩
    rw [List.length_dropLast] at hi
    have hi' : i < l.length := by omega
    rw [hb i hi', List.getD_eq_getElem _ _ hi', List.getD_eq_getElem _ _ (by rw [List.length_dropLast]; exact hi),
      List.getElem_dropLast]
  · split
    · rename_i hlt
      refine ⟨_, by rw [List.length_append, List.length_singleton], fun i hi => ?_, ?_⟩
      · rw [List.length_append, List.length_singleton] at hi
        by_cases he : i = l.length
        · subst he
          rw [Function.update_self, List.getD_append_right _ _ _ _ (Nat.le_refl _), Nat.sub_self]
          rfl
        · rw [Function.update_of_ne (by omega), hb i (by omega), List.getD_append _ _ _ _ (by omega)]
      · rw [List.length_append, List.length_singleton]
        unfold maxLine at *
        omega
    · exact ⟨m, rfl, hb, hr⟩

/-- The buffer holds `l`, with a 0 behind it. -/
structure Ended (m : Mem) (line : Nat) (l : List UInt8) : Prop extends Filled m line l where
  nul : m (line + l.length) = 0

theorem Ended.strAt (h : Ended m line l) : StrAt m line (l.takeWhile (· != 0)) := .of_bytes h.bytes h.nul

/-- The line that is read. -/
theorem readLine_spec (keys : List UInt8) (h : Filled m line l) :
    match typed l keys with
    | none => readLine line m l.length keys = none
    | some (l', rest) => ∃ m', readLine line m l.length keys = some (m', rest) ∧ Ended m' line l' := by
  induction keys generalizing m l with
  | nil => rfl
  | cons c keys ih =>
      unfold typed readLine
      by_cases hc : c = 13 ∨ c = 10
      · rw [if_pos hc]
        refine ⟨_, if_pos hc, ⟨fun i hi => ?_, h.room⟩, Function.update_self _ _ _⟩
        rw [Function.update_of_ne (by omega)]
        exact h.bytes i hi
      · obtain ⟨m', hk, hf⟩ := readKey_spec h c
        rw [if_neg hc, if_neg hc, hk]
        exact ih hf

/-! ## Tokens -/

/-- The first word of a line. -/
def firstWord (str : List UInt8) : List UInt8 :=
  (str.dropWhile (· == 32)).takeWhile fun c => c != 0 && c != 32

theorem space_delim : (fun c : UInt8 => c != 0 && (ascii " ").contains c) = (· == 32) := by
  funext c
  by_cases h : c = 32 <;> simp [ascii, h]

theorem space_word : (fun c : UInt8 => c != 0 && !(ascii " ").contains c) = fun c => c != 0 && c != 32 := by
  funext c
  by_cases h : c = 32 <;> simp [ascii, h]

theorem scan_ge (m : Mem) (p : UInt8 → Bool) (n a : Nat) : a ≤ scan m p n a := by
  induction n generalizing a with
  | zero => exact Nat.le_refl a
  | succ n ih =>
      unfold scan
      split
      · exact (Nat.le_succ a).trans (ih _)
      · exact Nat.le_refl a

theorem firstWord_eq_nil (h : StrAt m a str) : firstWord str = [] ↔ str.dropWhile (· == 32) = [] := by
  unfold firstWord
  constructor
  · intro hw
    cases hd : str.dropWhile (· == 32) with
    | nil => rfl
    | cons c s' =>
        have hs : StrAt m a (str.takeWhile (· == 32) ++ c :: s') := by
          rw [← hd, List.takeWhile_append_dropWhile]
          exact h
        have hc : (c == 32) = false := by
          have := List.head?_dropWhile_not (· == 32) str
          simpa [hd] using this
        rw [hd, List.takeWhile_cons_of_pos] at hw
        · cases hw
        · simp only [bne_iff_ne, ne_eq, Bool.and_eq_true]
          exact ⟨hs.drop.2.1, by simpa using hc⟩
  · intro hd
    rw [hd]
    rfl

/-- The first token of a line: the bytes before its end stay, and `saved` points behind it. -/
theorem strtok_spec (h : StrAt s.mem a str) (ha : a ≠ 0) (hn : str.length ≤ maxLine) :
    firstWord str = [] ∧ (strtok maxLine s a (ascii " ")).1 = 0 ∨
      firstWord str ≠ [] ∧ ∃ token s', strtok maxLine s a (ascii " ") = (token, s') ∧
        token = a + (str.takeWhile (· == 32)).length ∧ StrAt s'.mem token (firstWord str) ∧
        (∀ x < token + (firstWord str).length, s'.mem x = s.mem x) ∧
        (s'.saved = 0 ∨ token + (firstWord str).length < s'.saved) := by
  have hsplit : StrAt s.mem a (str.takeWhile (· == 32) ++ str.dropWhile (· == 32)) := by
    rw [List.takeWhile_append_dropWhile]
    exact h
  have hlen : (str.dropWhile (· == 32)).length ≤ maxLine := (List.dropWhile_suffix _).length_le.trans hn
  have hbody := hsplit.drop
  have hscan := scan_eq (p := (· == 32)) h hn rfl
  unfold strtok
  rw [space_delim, space_word, if_pos ha]
  simp only [if_neg ha, hscan]
  generalize hb : a + (str.takeWhile (· == 32)).length = token at hbody
  by_cases hw : firstWord str = []
  · rw [(firstWord_eq_nil h).mp hw] at hbody
    exact .inl ⟨hw, by rw [if_pos (strAt_nil.mp hbody)]⟩
  · have hne : str.dropWhile (· == 32) ≠ [] := fun he => hw ((firstWord_eq_nil h).mpr he)
    have hfirst : s.mem token ≠ 0 := by
      obtain ⟨c, t, he⟩ := List.exists_cons_of_ne_nil hne
      rw [he] at hbody
      rw [hbody.1]
      exact hbody.2.1
    have hend : scan s.mem (fun c => c != 0 && c != 32) maxLine token = token + (firstWord str).length :=
      scan_eq hbody hlen rfl
    obtain ⟨t, ht⟩ : ∃ t, str.dropWhile (· == 32) = firstWord str ++ t :=
      ⟨_, List.takeWhile_append_dropWhile.symm⟩
    rw [if_neg hfirst, hend]
    rw [ht] at hbody
    refine .inr ⟨hw, ?_⟩
    by_cases hz : s.mem (token + (firstWord str).length) = 0
    · rw [if_neg (by simpa using hz)]
      refine ⟨_, _, rfl, rfl, ?_, fun x _ => rfl, .inl rfl⟩
      cases t with
      | nil => simpa using hbody
      | cons c t =>
          have := hbody.drop
          exact absurd (this.1.symm.trans hz) this.2.1
    · rw [if_pos hz]
      exact ⟨_, _, rfl, rfl, hbody.cut, fun x hx => Function.update_of_ne (by omega) _ _, .inr (Nat.lt_succ_self _)⟩

/-- The further calls of `strtok` write behind the token only. -/
theorem strtok_frame {b : Nat} (h : s.saved = 0 ∨ b ≤ s.saved) :
    (∀ x < b, (strtok maxLine s 0 (ascii " ")).2.mem x = s.mem x) ∧
      ((strtok maxLine s 0 (ascii " ")).2.saved = 0 ∨ b ≤ (strtok maxLine s 0 (ascii " ")).2.saved) := by
  unfold strtok
  simp only [ne_eq, not_true_eq_false, if_false]
  rcases h with h | h
  · rw [if_pos h]
    exact ⟨fun _ _ => rfl, .inl h⟩
  · have h1 := scan_ge s.mem (fun c => c != 0 && (ascii " ").contains c) maxLine s.saved
    generalize scan s.mem (fun c => c != 0 && (ascii " ").contains c) maxLine s.saved = token at h1
    have h2 := scan_ge s.mem (fun c => c != 0 && !(ascii " ").contains c) maxLine token
    generalize scan s.mem (fun c => c != 0 && !(ascii " ").contains c) maxLine token = saved at h2
    split
    · rename_i h0
      exact ⟨fun _ _ => rfl, .inl h0⟩
    · split
      · exact ⟨fun _ _ => rfl, .inr (h.trans h1)⟩
      · split
        · exact ⟨fun x hx => Function.update_of_ne (by omega) _ _, .inr (by show b ≤ saved + 1; omega)⟩
        · exact ⟨fun _ _ => rfl, .inl rfl⟩

theorem collect_frame (token n : Nat) {b : Nat} (h : s.saved = 0 ∨ b ≤ s.saved) :
    ∀ x < b, (collect s token n).2.mem x = s.mem x := by
  induction n generalizing s token with
  | zero => exact fun _ _ => rfl
  | succ n ih =>
      intro x hx
      unfold collect
      split
      · rfl
      · obtain ⟨hm, hs⟩ := strtok_frame h
        exact (ih _ hs x hx).trans (hm x hx)

theorem collect_succ (h : token ≠ 0) : ∃ argv, (collect s token (n + 1)).1 = token :: argv := by
  unfold collect
  rw [if_neg h]
  exact ⟨_, rfl⟩

/-! ## Commands -/

/-- The commands of the shell itself, and the names it does not start. -/
def ownNames : List (List UInt8) := ascii "clear" :: ascii "help" :: notAllowed

theorem ownNames_plain : ∀ name ∈ ownNames, 0 ∉ name ∧ name ≠ [] ∧ name.head? ≠ some 32 := by decide

/-- The memory after the tokens are taken: the first one is there, and the line reads as the first token
unless it begins with a space. -/
theorem collect_spec (h : StrAt s.mem line str) (hline : line ≠ 0) (hn : str.length < maxLine)
    (hw : firstWord str ≠ []) :
    ∃ s' token argv s'', strtok maxLine s line (ascii " ") = (token, s') ∧
      collect s' token maxArgs = (token :: argv, s'') ∧ StrAt s''.mem token (firstWord str) ∧
      ∀ name ∈ ownNames, eqAt s''.mem line name = true ↔ str.head? ≠ some 32 ∧ firstWord str = name := by
  obtain ⟨h0, -⟩ | ⟨-, token, s', hst, htok, hstr, hmem, hsaved⟩ := strtok_spec h hline hn.le
  · exact absurd h0 hw
  obtain ⟨argv, hargv⟩ := collect_succ (s := s') (n := 7) (show token ≠ 0 by omega)
  have hframe := collect_frame token 8 hsaved
  refine ⟨s', token, argv, (collect s' token 8).2, hst, ?_, ?_, fun name hname => ?_⟩
  · rw [← hargv]
    rfl
  · exact hstr.congr fun x _ hx => hframe x (Nat.lt_succ_of_le hx)
  · obtain ⟨hzero, hne, hhead⟩ := ownNames_plain name hname
    cases str with
    | nil => exact absurd rfl hw
    | cons c t =>
        by_cases hc : c = 32
        · subst hc
          have hlt : line < token := by
            rw [htok, List.takeWhile_cons_of_pos rfl, List.length_cons]
            omega
          have hfirst : (collect s' token 8).2.mem line = 32 := by
            rw [hframe line (by omega), hmem line (by omega)]
            exact h.1
          cases name with
          | nil => exact absurd rfl hne
          | cons d t' =>
              have hd : (32 : UInt8) ≠ d := fun he => hhead (by rw [he]; rfl)
              simp [eqAt, hfirst, hd]
        · have htl : token = line := by
            rw [htok, List.takeWhile_cons_of_neg (by simpa using hc)]
            rfl
          have hstr' : StrAt (collect s' token 8).2.mem line (firstWord (c :: t)) := by
            rw [htl] at hstr hframe ⊢
            exact hstr.congr fun x _ hx => hframe x (Nat.lt_succ_of_le hx)
          rw [eqAt_iff hstr' hzero]
          simp [hc]

/-- The program that a line starts: its first word, unless the line itself is a name of the shell's own. -/
theorem command_exec_iff (fs : Initramfs) (canFork : Bool) (filename : List UInt8) (h : StrAt s.mem line str) (hline : line ≠ 0) (hn : str.length < maxLine) :
    (∃ argv, (command fs line s canFork).1 = .exec filename argv) ↔
      firstWord str ≠ [] ∧ (str.head? = some 32 ∨ firstWord str ∉ ownNames) ∧
      filename = firstWord str ++ ascii ".elf" ∧ (fs.find filename).isSome ∧ canFork = true := by
  unfold command
  cases str with
  | nil =>
      rw [if_pos (strAt_nil.mp h)]
      exact iff_of_false (fun ⟨_, he⟩ => by cases he) fun hr => hr.1 rfl
  | cons c t =>
      rw [if_neg (by rw [h.1]; exact h.2.1)]
      by_cases hw : firstWord (c :: t) = []
      · obtain ⟨-, h0⟩ | ⟨h0, -⟩ := strtok_spec h hline hn.le
        · refine iff_of_false (fun ⟨_, he⟩ => ?_) fun hr => hr.1 hw
          simp [h0, collect, maxArgs] at he
        · exact absurd hw h0
      · obtain ⟨s', token, argv, s'', hst, hcol, hstr, hown⟩ := collect_spec h hline hn hw
        have hlen : (firstWord (c :: t)).length ≤ maxLine :=
          ((List.takeWhile_prefix _).length_le.trans (List.dropWhile_suffix _).length_le).trans hn.le
        simp only [hst, hcol, strOf_eq hstr hlen]
        -- the names are refused together
        have hrefused : (¬eqAt s''.mem line (ascii "clear") = true ∧ ¬eqAt s''.mem line (ascii "help") = true ∧
            ¬notAllowed.any (eqAt s''.mem line) = true) ↔
              ((c :: t).head? = some 32 ∨ firstWord (c :: t) ∉ ownNames) := by
          rw [hown _ (by simp [ownNames]), hown _ (by simp [ownNames]), List.any_eq_true]
          constructor
          · rintro ⟨h1, h2, h3⟩
            refine or_iff_not_imp_left.mpr fun hc hmem => ?_
            rcases List.mem_cons.mp hmem with he | hmem
            · exact h1 ⟨hc, he⟩
            · rcases List.mem_cons.mp hmem with he | hmem
              · exact h2 ⟨hc, he⟩
              · exact h3 ⟨_, hmem, (hown _ (by simp [ownNames, hmem])).mpr ⟨hc, rfl⟩⟩
          · intro hor
            refine ⟨fun ⟨hc, he⟩ => ?_, fun ⟨hc, he⟩ => ?_, fun ⟨name, hmem, he⟩ => ?_⟩
            · exact hor.elim hc fun hn => hn (by simp [ownNames, he])
            · exact hor.elim hc fun hn => hn (by simp [ownNames, he])
            · obtain ⟨hc, he⟩ := (hown name (by simp [ownNames, hmem])).mp he
              exact hor.elim hc fun hn => hn (by simp [ownNames, he, hmem])
        rw [← hrefused]
        split
        · simp [*]
        · split
          · simp [*]
          · split
            · simp [*]
            · split
              · rename_i hnone
                refine iff_of_false (fun ⟨_, he⟩ => by cases he) fun ⟨_, _, hf, hs, _⟩ => ?_
                rw [hf, Option.isSome_iff_ne_none] at hs
                exact hs (Option.isNone_iff_eq_none.mp hnone)
              · rename_i h1 h2 h3 hsome
                cases canFork with
                | false => simp
                | true =>
                    simp only [if_true, Outcome.exec.injEq, and_true]
                    constructor
                    · rintro ⟨_, rfl, -⟩
                      exact ⟨hw, ⟨h1, h2, h3⟩, rfl, Option.isSome_iff_ne_none.mpr (by simpa using hsome)⟩
                    · rintro ⟨-, -, rfl, -⟩
                      exact ⟨_, rfl, rfl⟩

/-! ## Rounds -/

/-- The line begins with a space, and its first word is a program that the shell is not to start and that
the RAM disk has. -/
def Slips (fs : Initramfs) (l : List UInt8) : Prop :=
  (l.takeWhile (· != 0)).head? = some 32 ∧ ∃ name ∈ notAllowed, firstWord (l.takeWhile (· != 0)) = name ∧
    (fs.find (name ++ ascii ".elf")).isSome

/-- A round starts none of the programs that are not to be started, unless `fork` makes a child for a line
that slips through. -/
theorem round_allowed_iff (fs : Initramfs) (hline : line ≠ 0) (s : State) (keys : List UInt8) (canFork : Bool) :
    (∀ filename argv, (round fs line s keys canFork).1 = .exec filename argv →
        ∀ name ∈ notAllowed, filename ≠ name ++ ascii ".elf") ↔
      ¬(canFork = true ∧ ∃ l rest, typed [] keys = some (l, rest) ∧ Slips fs l) := by
  have hempty : Filled s.mem line [] := ⟨fun i hi => absurd hi (Nat.not_lt_zero i), by decide⟩
  have hread := readLine_spec keys hempty
  unfold round
  cases ht : typed [] keys with
  | none =>
      rw [ht] at hread
      rw [show readLine line s.mem 0 keys = none from hread]
      exact iff_of_true (fun _ _ he => by cases he) fun ⟨_, _, _, he, _⟩ => by cases he
  | some p =>
      obtain ⟨l, rest⟩ := p
      rw [ht] at hread
      obtain ⟨m', hr, hend⟩ := hread
      rw [show readLine line s.mem 0 keys = some (m', rest) from hr]
      have hexec := fun filename => command_exec_iff fs canFork filename
        (s := { s with mem := m' }) hend.strAt hline ((List.takeWhile_prefix _).length_le.trans_lt hend.room)
      constructor
      · rintro hall ⟨hfork, l', rest', he, hspace, name, hname, hword, hfs⟩
        cases he
        have hne : firstWord (l.takeWhile (· != 0)) ≠ [] := by
          rw [hword]
          exact (ownNames_plain name (by simp [ownNames, hname])).2.1
        obtain ⟨argv, ha⟩ := (hexec (name ++ ascii ".elf")).mpr ⟨hne, .inl hspace, by rw [hword], hfs, hfork⟩
        exact hall _ argv ha name hname rfl
      · intro hno filename argv he name hname hf
        obtain ⟨-, hor, hfile, hfs, hfork⟩ := (hexec filename).mp ⟨argv, he⟩
        have hword : firstWord (l.takeWhile (· != 0)) = name := List.append_cancel_right (hfile.symm.trans hf)
        refine hno ⟨hfork, l, rest, rfl, hor.resolve_right fun hn => hn ?_, name, hname, hword, hf ▸ hfs⟩
        rw [hword]
        simp [ownNames, hname]

/-- A line without a space before the name. -/
theorem round_allowed_iff_idle : ¬∃ filename argv,
    (round tinyFs 0x101ff00 ⟨fun _ => 0, 0⟩ (ascii "idle" ++ [13]) true).1 = .exec filename argv ∧
      ∃ name ∈ notAllowed, filename = name ++ ascii ".elf" := by
  rintro ⟨filename, argv, hexec, name, hname, he⟩
  refine (round_allowed_iff tinyFs (by decide) ⟨fun _ => 0, 0⟩ (ascii "idle" ++ [13]) true).mpr ?_ _ _ hexec _ hname he
  rintro ⟨-, l, rest, ht, hs, -⟩
  obtain ⟨rfl, -⟩ : ascii "idle" = l ∧ [] = rest := by simpa [typed, edit, ascii, maxLine] using ht
  exact absurd hs (by decide)

/-- The shell starts another shell. -/
theorem round_allowed_shell : ∃ argv,
    (round tinyFs 0x101ff00 ⟨fun _ => 0, 0⟩ (ascii " shell" ++ [13]) true).1 =
      .exec (ascii "shell" ++ ascii ".elf") argv ∧ ascii "shell" ∈ notAllowed :=
  ⟨[0x101ff01], by decide +kernel⟩

end RiscvOs.Shell
