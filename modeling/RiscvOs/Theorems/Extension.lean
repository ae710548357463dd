import RiscvOs.Strings
import RiscvOs.Lib.Outcome
import RiscvOs.Syscall

/-!
# The extension of a program's name

`strip_elf_extension` looks for the first `.elf` and compares it with the end of the name. A name with the extension
at its end and once more in front of that keeps both.
-/

namespace RiscvOs

open ByteMem CString Outcome Kernel

variable {dest src n a progname outName maxlen : Nat} {m : ByteMem.Mem} {c : UInt8}
  {name s t u v needle : List UInt8}

/-! ## `strncpy` -/

theorem strncpy_outside (h : a < dest ∨ dest + n ≤ a) : strncpy dest src n m a = m a := by
  induction n generalizing dest src m with
  | zero => rfl
  | succ n ih =>
      rw [strncpy]
      split
      · exact write_outside (by omega)
      · rw [ih (by omega), Function.update_of_ne (by omega)]

/-- The copy with a 0 behind its last byte. The memory of the copy does not begin inside that of the name. -/
theorem strncpy_strAt (h : StrAt m src s) (hd : dest ≤ src ∨ src + s.length < dest) :
    StrAt (Function.update (strncpy dest src n m) (dest + n) 0) dest (s.take n) := by
  induction n generalizing dest src m s with
  | zero =>
      rw [List.take_zero]
      exact Function.update_self ..
  | succ n ih =>
      cases s with
      | nil =>
          rw [strncpy, if_pos (strAt_nil.mp h), List.take_nil, strAt_nil, Function.update_of_ne (by omega)]
          exact write_inside (Nat.le_refl _) (by omega)
      | cons c s =>
          obtain ⟨hc, h0, hs⟩ := h
          rw [List.length_cons] at hd
          have hcopy : StrAt (Function.update m dest c) (src + 1) s :=
            hs.congr fun x hx hx' => Function.update_of_ne (by omega) ..
          have hend : dest + (n + 1) = dest + 1 + n := by omega
          rw [strncpy, hc, if_neg h0, List.take_succ_cons, hend]
          refine ⟨?_, h0, ih hcopy (by omega)⟩
          rw [Function.update_of_ne (by omega), strncpy_outside (by omega), Function.update_self]

/-! ## `strstr` -/

theorem matchFrom_eq_nil (h : StrAt m a s) (h0 : 0 ∉ needle) : matchFrom m a needle = [] ↔ needle <+: s := by
  induction needle generalizing a s with
  | nil => simp [matchFrom]
  | cons d needle ih =>
      have hd : d ≠ 0 := fun he => h0 (by simp [he])
      cases s with
      | nil => simp [matchFrom, strAt_nil.mp h]
      | cons c s =>
          obtain ⟨hc, hc0, hs⟩ := h
          rw [matchFrom, hc, List.cons_prefix_cons]
          by_cases hcd : c = d
          · rw [if_pos ⟨hc0, hcd⟩, ih hs fun hm => h0 (List.mem_cons_of_mem _ hm)]
            exact (and_iff_right hcd.symm).symm
          · rw [if_neg fun hh => hcd hh.2]
            exact iff_of_false (List.cons_ne_nil _ _) fun hh => hcd hh.1.symm

/-- `u` stands in front of the first `needle` in `s`, and `v` behind it. -/
structure FirstIn (needle s u v : List UInt8) : Prop where
  split : s = u ++ needle ++ v
  least : ∀ u' v', s = u' ++ needle ++ v' → u.length ≤ u'.length

theorem FirstIn.here (h : needle ++ v = s) : FirstIn needle s [] v := ⟨h.symm, fun _ _ _ => Nat.zero_le _⟩

theorem FirstIn.cons (h : FirstIn needle s u v) (hno : ¬needle <+: c :: s) : FirstIn needle (c :: s) (c :: u) v where
  split := congrArg (c :: ·) h.split
  least u' v' he := by
    cases u' with
    | nil => exact absurd ⟨v', he.symm⟩ hno
    | cons d u' =>
        injection he with _ he
        exact Nat.succ_le_succ (h.least u' v' he)

theorem exists_firstIn (h : needle <:+: s) : ∃ u v, FirstIn needle s u v := by
  induction s with
  | nil => exact ⟨[], [], .here (by simp [List.infix_nil.mp h])⟩
  | cons c s ih =>
      by_cases hp : needle <+: c :: s
      · obtain ⟨v, hv⟩ := hp
        exact ⟨[], v, .here hv⟩
      · obtain ⟨u, v, hfirst⟩ := ih ((List.infix_cons_iff.mp h).resolve_left hp)
        exact ⟨c :: u, v, hfirst.cons hp⟩

theorem strstrLoop_eq (h : StrAt m a s) (h0 : 0 ∉ needle) (hne : needle ≠ []) (hn : s.length < n) :
    ¬needle <:+: s ∧ strstrLoop m needle n a = .ok 0 ∨
      ∃ u v, FirstIn needle s u v ∧ strstrLoop m needle n a = .ok (a + u.length) := by
  induction s generalizing a n with
  | nil =>
      obtain ⟨n, rfl⟩ := Nat.exists_eq_succ_of_ne_zero (Nat.ne_zero_of_lt hn)
      exact .inl ⟨fun hi => hne (List.infix_nil.mp hi), if_pos h⟩
  | cons c s ih =>
      obtain ⟨n, rfl⟩ := Nat.exists_eq_succ_of_ne_zero (Nat.ne_zero_of_lt hn)
      have hmatch := matchFrom_eq_nil h h0
      obtain ⟨hc, hc0, hs⟩ := h
      rw [strstrLoop, if_neg (by rwa [hc])]
      by_cases hp : needle <+: c :: s
      · obtain ⟨v, hv⟩ := hp
        exact .inr ⟨[], v, .here hv, if_pos (hmatch.mpr ⟨v, hv⟩)⟩
      · rw [if_neg (hmatch.not.mpr hp)]
        rcases ih hs (Nat.lt_of_succ_lt_succ hn) with ⟨hno, hnull⟩ | ⟨u, v, hfirst, hdot⟩
        · exact .inl ⟨fun hi => (List.infix_cons_iff.mp hi).elim hp hno, hnull⟩
        · refine .inr ⟨c :: u, v, hfirst.cons hp, ?_⟩
          rw [hdot, List.length_cons, Nat.add_right_comm, Nat.add_assoc]

/-! ## The name -/

theorem dotElf_facts : 0 ∉ dotElf ∧ dotElf ≠ [] ∧ dotElf.length = 4 := by decide

theorem take_four_iff : s.take 4 = [46, 101, 108, 102] ↔ dotElf <+: s := by
  rw [List.prefix_iff_eq_take, dotElf_facts.2.2]
  exact eq_comm

theorem cutElf_of_absent (h : ¬dotElf <:+: s) : cutElf s = s := by
  induction s with
  | nil => rfl
  | cons c s ih =>
      rw [List.infix_cons_iff, not_or] at h
      rw [cutElf, if_neg (take_four_iff.not.mpr h.1), ih h.2]

theorem cutElf_of_first (h : FirstIn dotElf s u v) : cutElf s = if v = [] then u else s := by
  induction u generalizing s with
  | nil =>
      cases s with
      | nil => exact absurd h.split (by simp [dotElf_facts.2.1])
      | cons c s =>
          have hlen := congrArg List.length h.split
          simp only [List.length_cons, List.nil_append, List.length_append, dotElf_facts.2.2] at hlen
          have hv : s.length = 3 ↔ v = [] := by
            rw [← List.length_eq_zero_iff]
            omega
          rw [cutElf, if_pos (take_four_iff.mpr ⟨v, h.split.symm⟩)]
          exact if_congr hv rfl rfl
  | cons c u ih =>
      have hsplit := h.split
      obtain ⟨s, rfl⟩ : ∃ s', s = c :: s' := ⟨_, hsplit⟩
      injection hsplit with _ hsplit
      have hno : ¬dotElf <+: c :: s := fun ⟨v', hv'⟩ => absurd (h.least [] v' hv'.symm) (Nat.not_succ_le_zero _)
      have hrest : FirstIn dotElf s u v :=
        ⟨hsplit, fun u' v' he => Nat.le_of_succ_le_succ (h.least (c :: u') v' (congrArg (c :: ·) he))⟩
      rw [cutElf, if_neg (take_four_iff.not.mpr hno), ih hrest]
      split <;> rfl

/-- The functions in memory do what `sys_exec` is told of the name. -/
theorem stripDotElf_eq (h : StrAt m progname name) (hp : progname ≠ 0) (ho : outName ≠ 0) (hmax : 1 ≤ maxlen)
    (hd : outName ≤ progname ∨ progname + name.length < outName) :
    ∃ m', stripDotElf progname outName maxlen m = .ok m' ∧ StrAt m' outName (cutElf (name.take (maxlen - 1))) := by
  have hcopy := strncpy_strAt (n := maxlen - 1) h hd
  have hlen : (name.take (maxlen - 1)).length < maxlen := by
    rw [List.length_take]
    omega
  unfold stripDotElf
  rw [if_neg (by omega)]
  simp only [strstr, if_neg dotElf_facts.2.1]
  generalize Function.update (strncpy outName progname (maxlen - 1) m) (outName + (maxlen - 1)) 0 = m₁ at hcopy ⊢
  generalize name.take (maxlen - 1) = t at hcopy hlen ⊢
  rcases strstrLoop_eq hcopy dotElf_facts.1 dotElf_facts.2.1 hlen with ⟨hno, hdot⟩ | ⟨u, v, hfirst, hdot⟩
  · refine ⟨m₁, ?_, ?_⟩
    · simp only [hdot, ok_bind, ne_eq, not_true_eq_false, false_and, if_false]
    · rwa [cutElf_of_absent hno]
  · have hsplit := hfirst.split
    rw [List.append_assoc] at hsplit
    rw [hsplit] at hcopy
    have heq := eqAt_iff hcopy.drop dotElf_facts.1
    rw [List.append_right_eq_self] at heq
    have hnz : outName + u.length ≠ 0 := by omega
    rw [cutElf_of_first hfirst]
    by_cases hv : v = []
    · refine ⟨Function.update m₁ (outName + u.length) 0, ?_, ?_⟩
      · simp only [hdot, ok_bind]
        exact if_pos ⟨hnz, heq.mpr hv⟩
      · rw [if_pos hv]
        exact hcopy.cut
    · refine ⟨m₁, ?_, ?_⟩
      · simp only [hdot, ok_bind]
        exact if_neg fun hh => hv (heq.mp hh.2)
      · rw [if_neg hv, hsplit]
        exact hcopy

/-- `t` without one extension at its end. -/
def withoutElf (t : List UInt8) : List UInt8 := if dotElf <:+ t then t.take (t.length - 4) else t

theorem withoutElf_append (u : List UInt8) : withoutElf (u ++ dotElf) = u := by
  rw [withoutElf, if_pos (List.suffix_append ..), List.length_append, dotElf_facts.2.2, Nat.add_sub_cancel,
    List.take_left]

theorem withoutElf_eq_self : withoutElf t = t ↔ ¬dotElf <:+ t := by
  refine ⟨fun h hs => ?_, fun h => if_neg h⟩
  obtain ⟨u, rfl⟩ := hs
  rw [withoutElf_append] at h
  exact dotElf_facts.2.1 (List.append_right_eq_self.mp h.symm)

/-- Two extensions in a name do not share characters. -/
theorem dotElf_apart (h : u ++ dotElf ++ v = t ++ dotElf) (hlt : u.length < t.length) :
    u.length + 4 ≤ t.length := by
  by_contra hle
  have hfirst : ∀ j, 1 ≤ j → j < 4 → dotElf[j]? ≠ dotElf[0]? := by decide
  have hat := congrArg (·[t.length]?) h
  simp only [List.append_assoc] at hat
  rw [List.getElem?_append_right hlt.le, List.getElem?_append_left (by rw [dotElf_facts.2.2]; omega),
    List.getElem?_append_right (Nat.le_refl _), Nat.sub_self] at hat
  exact hfirst _ (by omega) (by omega) hat

/-- The first extension does not end the name: then the name ends in one if it has two. -/
theorem FirstIn.suffix_iff (h : FirstIn dotElf t u v) (hv : v ≠ []) :
    dotElf <:+ t ↔ ∃ u' v', t = u' ++ dotElf ++ v' ++ dotElf := by
  constructor
  · rintro ⟨w, rfl⟩
    have hsplit := h.split
    have hlen := congrArg List.length hsplit
    have hpos := List.length_pos_of_ne_nil hv
    simp only [List.length_append, dotElf_facts.2.2] at hlen
    have hapart := dotElf_apart hsplit.symm (by omega)
    have hpre : u ++ dotElf <+: w := by
      refine List.prefix_of_prefix_length_le ⟨v, hsplit.symm⟩ (List.prefix_append w dotElf) ?_
      rw [List.length_append, dotElf_facts.2.2]
      exact hapart
    obtain ⟨v', rfl⟩ := hpre
    exact ⟨u, v', rfl⟩
  · rintro ⟨u', v', rfl⟩
    exact List.suffix_append ..

/-- The first extension ends the name: then there is no other. -/
theorem FirstIn.not_twice (h : FirstIn dotElf t u []) : ¬∃ u' v', t = u' ++ dotElf ++ v' ++ dotElf := by
  rintro ⟨u', v', rfl⟩
  have hle := h.least u' (v' ++ dotElf) (by simp)
  have hlen := congrArg List.length h.split
  simp only [List.length_append, dotElf_facts.2.2, List.length_nil] at hlen
  omega

/-- What `sys_exec` is told of a name is what it asks for, unless the extension stands in front of the one at the
end too. -/
theorem cutElf_eq_iff : cutElf t = withoutElf t ↔ ¬∃ u v, t = u ++ dotElf ++ v ++ dotElf := by
  by_cases hin : dotElf <:+: t
  · obtain ⟨u, v, h⟩ := exists_firstIn hin
    rw [cutElf_of_first h]
    by_cases hv : v = []
    · subst hv
      rw [if_pos rfl]
      have hsplit := h.split
      rw [List.append_nil] at hsplit
      exact iff_of_true (by rw [hsplit, withoutElf_append]) h.not_twice
    · rw [if_neg hv, eq_comm, withoutElf_eq_self, h.suffix_iff hv]
  · rw [cutElf_of_absent hin, eq_comm, withoutElf_eq_self]
    refine iff_of_true (fun hs => hin hs.isInfix) ?_
    rintro ⟨u, v, rfl⟩
    exact hin (List.suffix_append ..).isInfix

/-- `strip` leaves the name, cut to its room, without the extension at its end. -/
def Strips (strip : Nat → Nat → Nat → ByteMem.Mem → Except Halt ByteMem.Mem) (m : ByteMem.Mem)
    (progname outName maxlen : Nat) (name : List UInt8) : Prop :=
  ∃ m', strip progname outName maxlen m = .ok m' ∧ StrAt m' outName (withoutElf (name.take (maxlen - 1)))

theorem strips_iff (h : StrAt m progname name) (hp : progname ≠ 0) (ho : outName ≠ 0) (hmax : 1 ≤ maxlen)
    (hd : outName ≤ progname ∨ progname + name.length < outName) :
    Strips stripDotElf m progname outName maxlen name ↔
      ¬∃ u v, name.take (maxlen - 1) = u ++ dotElf ++ v ++ dotElf := by
  obtain ⟨m', hm', hat⟩ := stripDotElf_eq h hp ho hmax hd
  rw [← cutElf_eq_iff]
  constructor
  · rintro ⟨m'', hm'', hat'⟩
    cases hm'.symm.trans hm''
    exact hat.unique hat'
  · intro he
    exact ⟨m', hm', he ▸ hat⟩

/-- Both functions strip every name but those that have the extension a second time in front of the one at the
end. -/
theorem stripElfExtension_iff (h : StrAt m progname name) (hp : progname ≠ 0) (ho : outName ≠ 0) (hmax : 1 ≤ maxlen)
    (hd : outName ≤ progname ∨ progname + name.length < outName) :
    Strips stripElfExtensionKernel m progname outName maxlen name ∧
        Strips stripElfExtensionUser m progname outName maxlen name ↔
      ¬∃ u v, name.take (maxlen - 1) = u ++ dotElf ++ v ++ dotElf :=
  and_self_iff.trans (strips_iff h hp ho hmax hd)

theorem strAt_getD (h : 0 ∉ name) : StrAt (fun x => name.getD (x - 16) 0) 16 name := by
  have hat := StrAt.of_bytes (m := fun x => name.getD (x - 16) 0) (a := 16) (l := name)
    (fun i _ => by rw [Nat.add_sub_cancel_left]) (by simp)
  rwa [List.takeWhile_eq_self_iff.mpr fun c hc => by simpa using fun he : c = 0 => h (he ▸ hc)] at hat

/-- "echo.elf" in a buffer of 64 bytes. -/
theorem stripElfExtension_echo :
    Strips stripElfExtensionKernel (fun x => (ascii "echo.elf").getD (x - 16) 0) 16 1000 64 (ascii "echo.elf") ∧
        Strips stripElfExtensionUser (fun x => (ascii "echo.elf").getD (x - 16) 0) 16 1000 64 (ascii "echo.elf") ↔
      ¬∃ u v, (ascii "echo.elf").take (64 - 1) = u ++ dotElf ++ v ++ dotElf :=
  stripElfExtension_iff (strAt_getD (by decide)) (by decide) (by decide) (by decide) (.inr (by decide))

/-- "a.elf.elf" stays as it is. -/
theorem stripElfExtension_twice : ¬∀ (m : ByteMem.Mem) (progname outName maxlen : Nat) (name : List UInt8),
    StrAt m progname name → progname ≠ 0 → outName ≠ 0 → 1 ≤ maxlen →
      (outName ≤ progname ∨ progname + name.length < outName) →
        Strips stripElfExtensionKernel m progname outName maxlen name ∧
          Strips stripElfExtensionUser m progname outName maxlen name := by
  intro hall
  have hat : StrAt (fun x => (ascii "a.elf.elf").getD (x - 16) 0) 16 (ascii "a.elf.elf") := strAt_getD (by decide)
  have hstrip := (hall _ 16 1000 64 _ hat (by decide) (by decide) (by decide) (.inr (by decide))).1
  exact (strips_iff hat (by decide) (by decide) (by decide) (.inr (by decide))).mp hstrip ⟨ascii "a", [], by decide⟩

end RiscvOs
