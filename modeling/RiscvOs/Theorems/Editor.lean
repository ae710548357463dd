import RiscvOs.Theorems.Counter

/-!
# The line editor of the shell

The loop that reads a line is compared with an editor in which a backspace on an empty line has no effect. The
shell stores such a backspace as a character, and the two agree again when it is erased.
-/

namespace RiscvOs.Shell

open ByteMem

/-- The keys that erase. -/
abbrev Backspace (c : UInt8) : Prop := c = 0x7F ∨ c = 8

/-- The keys that end a line. -/
abbrev Enter (c : UInt8) : Prop := c = 13 ∨ c = 10

/-- The reference editor: what a key makes of the line. -/
def referenceEdit (l : List UInt8) (c : UInt8) : List UInt8 :=
  if Backspace c then l.dropLast else if l.length < maxLine - 1 then l ++ [c] else l

/-- The line of the reference editor. -/
def referenceLine (keys : List UInt8) : List UInt8 := keys.foldl referenceEdit []

/-- How many characters are stored after one more key. -/
def storedAfter (n : Nat) (c : UInt8) : Nat :=
  if Backspace c ∧ 0 < n then n - 1 else if n < maxLine - 1 then n + 1 else n

/-- How many characters are stored after the keys. -/
def stored (keys : List UInt8) : Nat := keys.foldl storedAfter 0

/-- A backspace comes where no character is stored, and is not erased again. -/
def Stray (keys : List UInt8) : Prop :=
  ∃ pre b post, keys = pre ++ b :: post ∧ Backspace b ∧ stored pre = 0 ∧
    ∀ mid, mid <+: post → stored (pre ++ b :: mid) ≠ 0

variable {keys l r : List UInt8} {c e : UInt8} {m : Mem} {line : Nat}

@[simp] theorem referenceLine_snoc : referenceLine (keys ++ [c]) = referenceEdit (referenceLine keys) c :=
  List.foldl_concat ..

@[simp] theorem stored_snoc : stored (keys ++ [c]) = storedAfter (stored keys) c := List.foldl_concat ..

theorem length_edit : (edit l c).length = storedAfter l.length c := by
  unfold edit storedAfter
  simp only [List.length_pos_iff]
  split
  · exact List.length_dropLast
  · split
    · exact List.length_append
    · rfl

/-- The characters are counted right. -/
theorem stored_eq (keys : List UInt8) : stored keys = (keys.foldl edit []).length := by
  induction keys using List.reverseRecOn with
  | nil => rfl
  | append_singleton keys c ih => rw [stored_snoc, List.foldl_concat, length_edit, ih]

theorem stray_snoc : Stray (keys ++ [c]) ↔
    stored (keys ++ [c]) ≠ 0 ∧ (Stray keys ∨ Backspace c ∧ stored keys = 0) := by
  constructor
  · rintro ⟨pre, b, post, h, hb, h0, hpost⟩
    rcases List.eq_nil_or_concat post with rfl | ⟨post, x, rfl⟩
    · obtain ⟨rfl, hx⟩ := List.append_inj' h rfl
      cases hx
      exact ⟨hpost [] List.prefix_rfl, .inr ⟨hb, h0⟩⟩
    · rw [List.concat_eq_append, ← List.cons_append, ← List.append_assoc] at h
      rw [List.concat_eq_append] at hpost
      obtain ⟨rfl, hx⟩ := List.append_inj' h rfl
      cases hx
      refine ⟨?_, .inl ⟨pre, b, post, rfl, hb, h0, fun mid hmid => ?_⟩⟩
      · have hall := hpost _ List.prefix_rfl
        rwa [← List.cons_append, ← List.append_assoc] at hall
      · exact hpost mid (hmid.trans (List.prefix_append ..))
  · rintro ⟨hn, ⟨pre, b, post, rfl, hb, h0, hpost⟩ | ⟨hb, h0⟩⟩
    · refine ⟨pre, b, post ++ [c], by simp, hb, h0, fun mid hmid => ?_⟩
      rcases List.prefix_concat_iff.mp hmid with rfl | hmid
      · simpa using hn
      · exact hpost mid hmid
    · refine ⟨keys, c, [], rfl, hb, h0, fun mid hmid => ?_⟩
      rw [List.prefix_nil.mp hmid]
      exact hn

/-- The reference editor stores no backspace. -/
theorem not_backspace_of_mem : ∀ c ∈ referenceLine keys, ¬Backspace c := by
  induction keys using List.reverseRecOn with
  | nil => exact fun _ h => absurd h List.not_mem_nil
  | append_singleton keys c ih =>
      rw [referenceLine_snoc, referenceEdit]
      split
      · exact fun x hx => ih x (List.mem_of_mem_dropLast hx)
      · split
        · intro x hx
          rcases List.mem_append.mp hx with hx | hx
          · exact ih x hx
          · rwa [List.mem_singleton.mp hx]
        · exact ih

/-- The lines of the two editors after the keys: the same, or that of the shell begins with a backspace, and
holds as many characters or one more. -/
inductive Beside (keys l r : List UInt8) : Prop
  | same (h : l = r) (hs : ¬Stray keys)
  | stray (b : UInt8) (t : List UInt8) (h : l = b :: t) (hb : Backspace b) (hle : r.length ≤ l.length)
      (hge : l.length ≤ r.length + 1) (hs : Stray keys)

theorem Beside.same_step (hn : stored keys = l.length) (hs : ¬Stray keys) :
    Beside (keys ++ [c]) (edit l c) (referenceEdit l c) := by
  have hlen : stored (keys ++ [c]) = (edit l c).length := by rw [stored_snoc, length_edit, hn]
  unfold edit referenceEdit at *
  by_cases hc : Backspace c
  · rw [if_pos hc]
    by_cases hl : l = []
    · subst hl
      rw [if_neg fun h => h.2 rfl, if_pos (by decide)] at *
      refine .stray c [] rfl hc (by simp) (by simp) (stray_snoc.mpr ⟨?_, .inr ⟨hc, hn⟩⟩)
      rw [hlen]
      exact Nat.one_ne_zero
    · rw [if_pos ⟨hc, hl⟩]
      refine .same rfl fun h => ?_
      obtain ⟨-, h | ⟨-, h⟩⟩ := stray_snoc.mp h
      · exact hs h
      · exact hl (List.length_eq_zero_iff.mp (hn.symm.trans h))
  · rw [if_neg fun h => hc h.1, if_neg hc]
    refine .same rfl fun h => ?_
    obtain ⟨-, h | ⟨h, -⟩⟩ := stray_snoc.mp h
    · exact hs h
    · exact hc h

theorem Beside.stray_step {b : UInt8} {t : List UInt8} (hn : stored keys = (b :: t).length) (hb : Backspace b)
    (hle : r.length ≤ (b :: t).length) (hge : (b :: t).length ≤ r.length + 1) (hs : Stray keys) :
    Beside (keys ++ [c]) (edit (b :: t) c) (referenceEdit r c) := by
  have hlen : stored (keys ++ [c]) = (edit (b :: t) c).length := by rw [stored_snoc, length_edit, hn]
  have hstray (h : edit (b :: t) c ≠ []) : Stray (keys ++ [c]) :=
    stray_snoc.mpr ⟨fun h0 => h (List.length_eq_zero_iff.mp (hlen.symm.trans h0)), .inl hs⟩
  unfold edit referenceEdit at *
  by_cases hc : Backspace c
  · rw [if_pos hc]
    rw [if_pos ⟨hc, List.cons_ne_nil _ _⟩] at *
    cases t with
    | nil =>
        -- the backspace that was stored is erased
        have hr : r.dropLast = [] := by
          apply List.length_eq_zero_iff.mp
          rw [List.length_dropLast]
          simp only [List.length_cons, List.length_nil] at hle
          omega
        refine .same hr.symm fun h => (stray_snoc.mp h).1 ?_
        rw [hlen]
        rfl
    | cons x t =>
        have hne : (b :: x :: t).dropLast ≠ [] := by rw [List.dropLast_cons_cons]; exact List.cons_ne_nil _ _
        refine .stray b (x :: t).dropLast List.dropLast_cons_cons hb ?_ ?_ (hstray hne)
        · rw [List.length_dropLast, List.length_dropLast]
          omega
        · rw [List.length_dropLast, List.length_dropLast]
          simp only [List.length_cons] at *
          omega
  · rw [if_neg hc]
    rw [if_neg fun h => hc h.1] at *
    by_cases hl : (b :: t).length < maxLine - 1
    · rw [if_pos hl] at *
      rw [if_pos (by omega)]
      refine .stray b (t ++ [c]) rfl hb ?_ ?_ (hstray (by simp))
      · rw [List.length_append, List.length_append]
        omega
      · rw [List.length_append, List.length_append]
        omega
    · rw [if_neg hl] at *
      refine .stray b t rfl hb ?_ ?_ (hstray (List.cons_ne_nil _ _))
      · split
        · rw [List.length_append, List.length_singleton]
          omega
        · exact hle
      · split
        · rw [List.length_append, List.length_singleton]
          omega
        · exact hge

theorem beside (keys : List UInt8) : Beside keys (keys.foldl edit []) (referenceLine keys) := by
  induction keys using List.reverseRecOn with
  | nil =>
      refine .same rfl fun ⟨pre, b, post, h, _⟩ => ?_
      cases pre <;> cases h
  | append_singleton keys c ih =>
      have hn := stored_eq keys
      rw [List.foldl_concat, referenceLine_snoc]
      cases ih with
      | same h hs =>
          rw [← h]
          exact .same_step hn hs
      | stray b t h hb hle hge hs =>
          rw [h] at hn hle hge ⊢
          exact .stray_step hn hb hle hge hs

/-- The buffer is the line of the reference editor exactly where the lines are the same. -/
theorem ended_reference_iff (h : Ended m line (keys.foldl edit [])) :
    Ended m line (referenceLine keys) ↔ ¬Stray keys := by
  cases beside keys with
  | same he hs => exact iff_of_true (he ▸ h) hs
  | stray b t he hb _ _ hs =>
      refine iff_of_false (fun hr => ?_) (not_not_intro hs)
      have hfirst : m line = b := by
        have := h.bytes 0 (by simp [he])
        rwa [he] at this
      cases hl : referenceLine keys with
      | nil =>
          have h0 : m line = 0 := by
            have := hr.nul
            rwa [hl] at this
          rw [← hfirst, h0] at hb
          exact absurd hb (by decide)
      | cons x s =>
          have hx : m line = x := by
            have := hr.bytes 0 (by simp [hl])
            rwa [hl] at this
          have hmem : b ∈ referenceLine keys := by simp [hl, ← hx, hfirst]
          exact not_backspace_of_mem b hmem hb

theorem typed_enter (hkeys : ∀ c ∈ keys, ¬Enter c) (he : Enter e) (rest : List UInt8) :
    typed l (keys ++ e :: rest) = some (keys.foldl edit l, rest) := by
  induction keys generalizing l with
  | nil => exact if_pos he
  | cons c keys ih =>
      rw [List.cons_append, typed, if_neg (hkeys c (List.mem_cons_self ..)), List.foldl_cons]
      exact ih fun x hx => hkeys x (List.mem_cons_of_mem _ hx)

/-- The keys up to ENTER make the line of the reference editor exactly when each backspace that comes where no
character is stored is erased again. -/
theorem readLine_reference_iff (line : Nat) (m : Mem) (keys rest : List UInt8) (e : UInt8)
    (hkeys : ∀ c ∈ keys, ¬Enter c) (he : Enter e) :
    ∃ m', readLine line m 0 (keys ++ e :: rest) = some (m', rest) ∧
      (Ended m' line (referenceLine keys) ↔ ¬Stray keys) := by
  have hempty : Filled m line [] := ⟨fun i hi => absurd hi (Nat.not_lt_zero i), by decide⟩
  have hread := readLine_spec (keys ++ e :: rest) hempty
  rw [typed_enter hkeys he] at hread
  obtain ⟨m', hr, hend⟩ := hread
  exact ⟨m', hr, ended_reference_iff hend⟩

/-- A backspace that is typed too early, and erased. -/
theorem readLine_reference_iff_erased : ∃ m',
    readLine 0x101ff00 (fun _ => 0) 0 ([8, 8] ++ 13 :: []) = some (m', []) ∧
      (Ended m' 0x101ff00 (referenceLine [8, 8]) ↔ ¬Stray [8, 8]) :=
  readLine_reference_iff 0x101ff00 (fun _ => 0) [8, 8] [] 13 (by simp [Enter]) (.inl rfl)

/-- A backspace on the empty line stays in the buffer. -/
theorem readLine_keeps_backspace : ¬∃ m',
    readLine 0x101ff00 (fun _ => 0) 0 ([8] ++ 13 :: []) = some (m', []) ∧ Ended m' 0x101ff00 (referenceLine [8]) := by
  rintro ⟨m', hr, hend⟩
  have hm : readLine 0x101ff00 (fun _ => 0) 0 ([8] ++ 13 :: []) =
      some (Function.update (Function.update (fun _ => 0) 0x101ff00 8) (0x101ff00 + 1) 0, []) := by
    simp [readLine, readKey, maxLine]
  rw [hm] at hr
  cases hr
  have hnul := hend.nul
  rw [show referenceLine [8] = [] from rfl, List.length_nil, Nat.add_zero, Function.update_of_ne (by omega),
    Function.update_self] at hnul
  cases hnul

end RiscvOs.Shell
