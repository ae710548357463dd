import Mathlib

/-!
# Words

A text is a list of characters of which some are delimiters. Its words are the longest runs of the others.
-/

namespace Words

variable {α : Type*} {p : α → Bool} {l w pre rest : List α} {ws : List (Nat × List α)} {i j : Nat} {c : α}

/-- `w` is a word of the text `l`, at place `j`; the text itself begins at place `i`. -/
def IsWord (p : α → Bool) (i : Nat) (l : List α) (j : Nat) (w : List α) : Prop :=
  ∃ pre post, l = pre ++ (w ++ post) ∧ j = i + pre.length ∧ w ≠ [] ∧ (∀ c ∈ w, p c = false) ∧
    (∀ c ∈ pre.getLast?, p c = true) ∧ ∀ c ∈ post.head?, p c = true

/-- The text `l` at place `i` is made of the words `ws`, with delimiters around them. -/
inductive Splits (p : α → Bool) : Nat → List α → List (Nat × List α) → Prop
  | done {i : Nat} {l : List α} (h : ∀ c ∈ l, p c = true) : Splits p i l []
  | word {i : Nat} {pre w rest : List α} {ws : List (Nat × List α)} (hpre : ∀ c ∈ pre, p c = true) (hw : w ≠ [])
      (hall : ∀ c ∈ w, p c = false) (hrest : ∀ c ∈ rest.head?, p c = true)
      (h : Splits p (i + pre.length + w.length) rest ws) :
      Splits p i (pre ++ (w ++ rest)) ((i + pre.length, w) :: ws)

/-! ## Runs of characters -/

theorem takeWhile_append (hall : ∀ c ∈ w, p c = true) (hrest : ∀ c ∈ rest.head?, p c = false) :
    (w ++ rest).takeWhile p = w := by
  induction w with
  | nil =>
      cases rest with
      | nil => rfl
      | cons c rest => exact List.takeWhile_cons_of_neg (by simp [hrest c rfl])
  | cons c w ih =>
      rw [List.cons_append, List.takeWhile_cons_of_pos (hall c (List.mem_cons_self ..)),
        ih fun x hx => hall x (List.mem_cons_of_mem _ hx)]

theorem head_word (hw : w ≠ []) (hall : ∀ c ∈ w, p c = false) : ∀ c ∈ (w ++ rest).head?, p c = false := by
  cases w with
  | nil => exact absurd rfl hw
  | cons d w =>
      intro c hc
      cases hc
      exact hall _ (List.mem_cons_self ..)

/-- Every text is made of words. -/
theorem exists_splits (p : α → Bool) (i : Nat) (l : List α) : ∃ ws, Splits p i l ws := by
  generalize hn : l.length = n
  induction n using Nat.strong_induction_on generalizing i l with
  | _ n ih =>
      have hall : ∀ c ∈ (l.dropWhile p).takeWhile (!p ·), p c = false := fun c hc => by
        simpa using List.mem_takeWhile_imp hc
      have heq : l = l.takeWhile p ++
          ((l.dropWhile p).takeWhile (!p ·) ++ (l.dropWhile p).dropWhile (!p ·)) := by
        rw [List.takeWhile_append_dropWhile, List.takeWhile_append_dropWhile]
      generalize hpre : l.takeWhile p = pre at heq
      have hp : ∀ c ∈ pre, p c = true := fun c hc => List.mem_takeWhile_imp (hpre ▸ hc)
      by_cases hd : l.dropWhile p = []
      · rw [hd] at heq
        simp only [List.takeWhile_nil, List.dropWhile_nil, List.append_nil] at heq
        exact ⟨[], .done (heq ▸ hp)⟩
      · have hw : (l.dropWhile p).takeWhile (!p ·) ≠ [] := by
          cases hl : l.dropWhile p with
          | nil => exact absurd hl hd
          | cons c t =>
              have hc := List.head?_dropWhile_not p l
              rw [hl] at hc
              rw [List.takeWhile_cons_of_pos (by simpa using hc)]
              exact List.cons_ne_nil _ _
        have hrest : ∀ c ∈ ((l.dropWhile p).dropWhile (!p ·)).head?, p c = true := fun c hc => by
          have := List.head?_dropWhile_not (!p ·) (l.dropWhile p)
          rw [hc] at this
          simpa using this
        generalize (l.dropWhile p).takeWhile (!p ·) = w at heq hw hall
        generalize (l.dropWhile p).dropWhile (!p ·) = rest at heq hrest
        have hpos := List.length_pos_iff.mpr hw
        obtain ⟨ws, hws⟩ := ih rest.length (by rw [← hn, heq, List.length_append, List.length_append]; omega)
          (i + pre.length + w.length) rest rfl
        rw [heq]
        exact ⟨_, .word hp hw hall hrest hws⟩

/-! ## Which words there are -/

theorem isWord_delim (hc : p c = true) : IsWord p i (c :: l) j w ↔ IsWord p (i + 1) l j w := by
  constructor
  · rintro ⟨pre, post, heq, hj, hw, hall, hpre, hpost⟩
    cases pre with
    | nil =>
        have hhead := @head_word _ _ _ post hw hall c (by rw [← List.nil_append (w ++ post), ← heq]; rfl)
        exact absurd hc (by simp [hhead])
    | cons d pre =>
        obtain ⟨rfl, rfl⟩ := List.cons.inj heq
        refine ⟨pre, post, rfl, by rw [hj, List.length_cons]; omega, hw, hall, fun x hx => ?_, hpost⟩
        cases pre with
        | nil => cases hx
        | cons e pre => exact hpre x hx
  · rintro ⟨pre, post, rfl, hj, hw, hall, hpre, hpost⟩
    refine ⟨c :: pre, post, rfl, by rw [hj, List.length_cons]; omega, hw, hall, fun x hx => ?_, hpost⟩
    cases pre with
    | nil =>
        cases hx
        exact hc
    | cons e pre => exact hpre x hx

theorem isWord_skip (hpre : ∀ c ∈ pre, p c = true) :
    IsWord p i (pre ++ l) j w ↔ IsWord p (i + pre.length) l j w := by
  induction pre generalizing i with
  | nil => rfl
  | cons c pre ih =>
      rw [List.cons_append, isWord_delim (hpre c (List.mem_cons_self ..)),
        ih fun x hx => hpre x (List.mem_cons_of_mem _ hx), List.length_cons, Nat.add_right_comm, Nat.add_assoc]

theorem not_isWord_of_delims (h : ∀ c ∈ l, p c = true) : ¬IsWord p i l j w := by
  rintro ⟨pre, post, rfl, -, hw, hall, -⟩
  obtain ⟨c, hc⟩ := List.exists_mem_of_ne_nil w hw
  have := h c (List.mem_append_right _ (List.mem_append_left _ hc))
  rw [hall c hc] at this
  cases this

theorem isWord_word {v : List α} (hv : v ≠ []) (hall : ∀ c ∈ v, p c = false)
    (hrest : ∀ c ∈ rest.head?, p c = true) :
    IsWord p i (v ++ rest) j w ↔ (j = i ∧ w = v) ∨ IsWord p (i + v.length) rest j w := by
  constructor
  · rintro ⟨pre, post, heq, hj, hw, hallw, hpre, hpost⟩
    rcases List.append_eq_append_iff.mp heq with ⟨as, rfl, hrest'⟩ | ⟨bs, rfl, hpost'⟩
    · refine .inr ⟨as, post, hrest', by rw [hj, List.length_append]; omega, hw, hallw, fun c hc => ?_, hpost⟩
      exact hpre c (by rw [List.getLast?_append, Option.mem_def.mp hc]; rfl)
    · rcases List.eq_nil_or_concat pre with rfl | ⟨pre, c, rfl⟩
      · refine .inl ⟨hj, ?_⟩
        have h1 : (w ++ post).takeWhile (!p ·) = w :=
          takeWhile_append (fun c hc => by simp [hallw c hc]) fun c hc => by simp [hpost c hc]
        have h2 : (bs ++ rest).takeWhile (!p ·) = bs :=
          takeWhile_append (fun c hc => by simp [hall c (by simpa using hc)]) fun c hc => by simp [hrest c hc]
        rw [List.nil_append, ← h2, ← hpost', h1]
      · have hc := hpre c (by simp)
        rw [hall c (by simp)] at hc
        cases hc
  · rintro (⟨rfl, rfl⟩ | ⟨pre, post, rfl, hj, hw, hallw, hpre, hpost⟩)
    · exact ⟨[], rest, rfl, rfl, hv, hall, (fun c hc => by cases hc), hrest⟩
    · refine ⟨v ++ pre, post, (List.append_assoc ..).symm, by rw [hj, List.length_append]; omega, hw, hallw,
        fun c hc => ?_, hpost⟩
      cases pre with
      | nil =>
          -- no word begins where a word ends
          cases w with
          | nil => exact absurd rfl hw
          | cons d w =>
              have hd := hrest d rfl
              rw [hallw d (List.mem_cons_self ..)] at hd
              cases hd
      | cons d pre =>
          rw [List.getLast?_append] at hc
          exact hpre c (by simpa using hc)

namespace Splits

/-- The parts are the words. -/
theorem mem_iff (h : Splits p i l ws) : (j, w) ∈ ws ↔ IsWord p i l j w := by
  induction h with
  | done h => exact iff_of_false List.not_mem_nil (not_isWord_of_delims h)
  | word hpre hw hall hrest _ ih =>
      rw [isWord_skip hpre, isWord_word hw hall hrest, ← ih, List.mem_cons, Prod.mk.injEq]

theorem nil (h : Splits p i [] ws) : ws = [] := by
  refine List.eq_nil_iff_forall_not_mem.mpr ?_
  rintro ⟨j, w⟩ hx
  exact not_isWord_of_delims (fun c hc => absurd hc List.not_mem_nil) (h.mem_iff.mp hx)

theorem le (h : Splits p i l ws) : ∀ x ∈ ws, i ≤ x.1 := by
  rintro ⟨j, w⟩ hx
  obtain ⟨pre, post, -, rfl, -⟩ := h.mem_iff.mp hx
  exact Nat.le_add_right ..

/-- They come in the order of the text, and do not overlap. -/
theorem sorted (h : Splits p i l ws) : ws.Pairwise fun x y => x.1 + x.2.length ≤ y.1 := by
  induction h with
  | done => exact .nil
  | word _ _ _ _ h ih => exact .cons (fun y hy => h.le y hy) ih

/-- A delimiter in front of the text. -/
theorem tail (h : Splits p i (c :: l) ws) (hc : p c = true) : Splits p (i + 1) l ws := by
  generalize he : c :: l = l' at h
  cases h with
  | done h => exact .done fun x hx => h x (he ▸ List.mem_cons_of_mem _ hx)
  | @word _ pre w rest ws hpre hw hall hrest h =>
      cases pre with
      | nil =>
          have hhead := @head_word _ _ _ rest hw hall c (by rw [← List.nil_append (w ++ rest), ← he]; rfl)
          exact absurd hc (by simp [hhead])
      | cons d pre =>
          obtain ⟨rfl, rfl⟩ := List.cons.inj he
          have hi : i + (c :: pre).length = i + 1 + pre.length := by
            rw [List.length_cons]
            omega
          rw [hi] at h ⊢
          exact .word (fun x hx => hpre x (List.mem_cons_of_mem _ hx)) hw hall hrest h

end Splits

end Words
