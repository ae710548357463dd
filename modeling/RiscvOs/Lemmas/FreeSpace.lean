import RiscvOs.Lemmas.Space

/-!
# Giving an address space back

The three routes by which pages return to the allocator: the walk over the user's pages with the recursion
of `free_pagetable`, the block of the flat image, and the sweep over the tracked allocations of a pid. On a
well-formed space the first frees each of its pages once.
-/

namespace RiscvOs

open ByteMem Outcome Radix

variable {L : Layout} {s s' s'' t t' : Phys} {F F' F'' Ft Ft' ps ps' : List Nat} {m m' : Mem}
  {root lvl pt pa va pg x : Nat} {i j : Fin 512} {q : List (Fin 512)} {v : Vpn} {D D' W : Nat → Prop}

/-! ## Well-formed trees -/

/-- What hangs below entry `i` of the table `pt` of level `lvl`. -/
def Below (m : Mem) (lvl pt : Nat) (i : Fin 512) (pg : Nat) : Prop :=
  ∃ q, held (pteAt m) pteNext userFrame lvl pt (i :: q) = some pg

/-- The entries of level 0 that are valid carry a right, so that none is taken for a table. -/
def LeavesOk (m : Mem) (lvl pt : Nat) : Prop :=
  ∀ q e, held (pteAt m) pteNext some lvl pt q = some e → q.length = lvl + 1 →
    pteHas e pteV → pteHas e pteRWX

/-- A tree of `lvl + 1` levels under the page `pt`: its tables and the user's frames are all different. -/
structure TreeOk (m : Mem) (lvl pt : Nat) : Prop where
  aligned : pt % 4096 = 0
  lt : pt < 2 ^ 64
  distinct : Distinct (pteAt m) pteNext userFrame lvl pt
  leaves : LeavesOk m lvl pt

theorem held_aligned (ha : pt % 4096 = 0) (h : held (pteAt m) pteNext userFrame lvl pt q = some pg) :
    pg % 4096 = 0 :=
  held_all (P := fun pg => pg % 4096 = 0) ha (fun _ _ => pteNext_aligned) (fun _ _ => userFrame_aligned) h

theorem Below.aligned (ha : pt % 4096 = 0) (h : Below m lvl pt i pg) : pg % 4096 = 0 :=
  held_aligned ha h.choose_spec

theorem TreeOk.held_lt (h : TreeOk m lvl pt) (hq : held (pteAt m) pteNext userFrame lvl pt q = some pg) :
    pg < 2 ^ 64 :=
  held_all (P := fun pg => pg < 2 ^ 64) h.lt (fun _ _ => pteNext_lt) (fun _ _ => userFrame_lt) hq

theorem TreeOk.below_ne (h : TreeOk m lvl pt) (hb : Below m lvl pt i pg) : pg ≠ pt := by
  rintro rfl
  obtain ⟨q, hq⟩ := hb
  have := h.distinct _ _ _ hq held_nil
  cases this

theorem TreeOk.below_inj (h : TreeOk m lvl pt) (hi : Below m lvl pt i pg) (hj : Below m lvl pt j pg) : i = j := by
  obtain ⟨q, hq⟩ := hi
  obtain ⟨q', hq'⟩ := hj
  exact (List.cons.inj (h.distinct _ _ _ hq hq')).1

/-- A child tree, in a memory in which none of its pages has been written. -/
theorem TreeOk.child (h : TreeOk m (lvl + 1) pt) (hx : pteNext (pteAt m pt i) = some x)
    (hm : ∀ a, Below m (lvl + 1) pt i (pageOf a) → m' a = m a) :
    TreeOk m' lvl x ∧
      ∀ q, held (pteAt m') pteNext userFrame lvl x q = held (pteAt m) pteNext userFrame lvl x q := by
  have hup : ∀ q pg, held (pteAt m) pteNext userFrame lvl x q = some pg →
      held (pteAt m) pteNext userFrame (lvl + 1) pt (i :: q) = some pg := fun q pg hq => by
    rw [held_cons, hx, Option.bind_some, hq]
  -- the tables of the child are the same in both memories
  have hent : ∀ q y j, held (pteAt m) pteNext userFrame lvl x q = some y → pteAt m' y j = pteAt m y j :=
    fun q y j hq => by
      refine pteAt_congr fun z h1 h2 => hm z ⟨q, ?_⟩
      rw [(pageOf_eq_iff (held_aligned (pteNext_aligned hx) hq)).mpr ⟨h1, h2⟩]
      exact hup q y hq
  have hsame : ∀ q, held (pteAt m') pteNext userFrame lvl x q = held (pteAt m) pteNext userFrame lvl x q :=
    fun q => held_congr (b := fun _ => False) (fun q' y j _ hy _ => hent q' y j hy) fun _ _ h => h
  refine ⟨⟨pteNext_aligned hx, pteNext_lt hx, fun p q y hp hq => ?_, fun q e hq hl => ?_⟩, hsame⟩
  · rw [hsame] at hp hq
    exact h.distinct.child hx p q y hp hq
  · have hq' : held (pteAt m) pteNext some lvl x q = some e := by
      rw [← hq]
      refine (held_congr (b := fun _ => False) (fun q' y j hl hy _ => hent q' y j ?_) fun _ _ h => h).symm
      exact (held_short hl).trans hy
    refine h.leaves (i :: q) e ?_ (by rw [List.length_cons, hl])
    rw [held_cons, hx, Option.bind_some, hq']

theorem leavesOk_root (h : ∀ v, pteHas (leafAt m root v) pteV → pteHas (leafAt m root v) pteRWX) :
    LeavesOk m 2 root := by
  intro q e hq hl hv
  match q with
  | [i, j, l] =>
      have he : leafAt m root (i, j, l) = e := by
        simp only [held_cons, held_leaf] at hq
        obtain ⟨x, hx, hq⟩ := Option.bind_eq_some_iff.mp hq
        obtain ⟨y, hy, hq⟩ := Option.bind_eq_some_iff.mp hq
        have ht : tableAt m root [i, j] = some y := by rw [tableAt_two, hx, Option.bind_some, hy]
        exact (leafAt_of_table (v := (i, j, l)) ht).trans (Option.some.inj hq)
      have := h (i, j, l)
      rw [he] at this
      exact this hv
  | [] | [_] | [_, _] | _ :: _ :: _ :: _ :: _ => simp at hl

/-- The entries of level 0, by their page numbers. -/
theorem TreeOk.rwx (h : TreeOk m 2 root) (hv : pteHas (leafAt m root v) pteV) :
    pteHas (leafAt m root v) pteRWX := by
  cases ht : tableAt m root [v.1, v.2.1] with
  | none =>
      rw [leafAt_of_none ht, pteHas_zero] at hv
      cases hv
  | some t =>
      rw [leafAt_of_table ht] at hv ⊢
      refine h.leaves [v.1, v.2.1, v.2.2] _ ?_ rfl hv
      rw [tableAt_two] at ht
      obtain ⟨y, hy, ht⟩ := Option.bind_eq_some_iff.mp ht
      rw [held_cons, hy, Option.bind_some, held_cons, ht, Option.bind_some, held_leaf]

theorem inSpace_iff_below : InSpace m root pg ↔ pg = root ∨ ∃ i, Below m 2 root i pg := by
  constructor
  · rintro ⟨q, hq⟩
    cases q with
    | nil => exact .inl (Option.some.inj hq).symm
    | cons i q => exact .inr ⟨i, q, hq⟩
  · rintro (rfl | ⟨i, q, hq⟩)
    · exact inSpace_root
    · exact ⟨i :: q, hq⟩

/-! ## The user's pages -/

/-- From `s` to `s'` the frames of `ps` leave the tree, and with them their entries. -/
structure Shrinks (s : Phys) (root : Nat) (s' : Phys) (ps : List Nat) : Prop where
  pushes : Pushes (IsTable s.mem root) s s' ps
  tree : TreeOk s'.mem 2 root
  split : ∀ pg, InSpace s.mem root pg ↔ InSpace s'.mem root pg ∨ pg ∈ ps
  gone : ∀ pg, InSpace s'.mem root pg → pg ∉ ps
  leaves : ∀ v, leafAt s'.mem root v = leafAt s.mem root v ∨ leafAt s'.mem root v = 0
  tables : tableAt s'.mem root = tableAt s.mem root

theorem Shrinks.refl (h : TreeOk s.mem 2 root) : Shrinks s root s [] :=
  ⟨.refl, h, by simp, by simp, fun _ => .inl rfl, rfl⟩

theorem isTable_congr (h : tableAt m' root = tableAt m root) : IsTable m' root pg ↔ IsTable m root pg := by
  rw [IsTable, IsTable, h]

theorem Shrinks.trans (h : Shrinks s root s' ps) (h' : Shrinks s' root s'' ps') :
    Shrinks s root s'' (ps' ++ ps) := by
  have hpush := h'.pushes.mono fun _ => (isTable_congr h.tables).mp
  refine ⟨(h.pushes.trans hpush (fun pg hpg => ?_) fun pg hpg => ?_).mono fun _ hw => hw.elim id id, h'.tree, fun pg => ?_, fun pg hin => ?_,
    fun v => ?_, h'.tables.trans h.tables⟩
  · exact h.gone pg ((h'.split pg).mpr (.inr hpg))
  · exact h.gone pg ((isTable_congr h.tables).mpr hpg).inSpace
  · rw [h.split, h'.split, List.mem_append]
    tauto
  · rw [List.mem_append, not_or]
    exact ⟨h'.gone pg hin, h.gone pg ((h'.split pg).mpr (.inl hin))⟩
  · rcases h'.leaves v with he | he
    · rw [he]
      exact h.leaves v
    · exact .inr he

theorem leafPte_eq : Phys.leafPte m root va = leafAt m root (vpn va) := by
  unfold Phys.leafPte
  simp only [vpn]
  by_cases h2 : pteHas (pteAt m root (px 2 va)) pteV
  · by_cases h1 : pteHas (pteAt m (pte2pa (pteAt m root (px 2 va))) (px 1 va)) pteV
    · have ht : tableAt m root [px 2 va, px 1 va] =
          some (pte2pa (pteAt m (pte2pa (pteAt m root (px 2 va))) (px 1 va))) := by
        simp [tableAt_two, pteNext, h2, h1]
      simp only [h2, h1, Bool.not_true, Bool.false_eq_true, ↓reduceIte]
      exact (leafAt_of_table (v := (px 2 va, px 1 va, px 0 va)) ht).symm
    · have ht : tableAt m root [px 2 va, px 1 va] = none := by simp [tableAt_two, pteNext, h2, h1]
      simp only [h2, h1, Bool.not_true, Bool.false_eq_true, Bool.not_false, ↓reduceIte]
      exact (leafAt_of_none (v := (px 2 va, px 1 va, px 0 va)) ht).symm
  · have ht : tableAt m root [px 2 va, px 1 va] = none := by simp [tableAt_two, pteNext, h2]
    simp only [h2, Bool.not_false, ↓reduceIte]
    exact (leafAt_of_none (v := (px 2 va, px 1 va, px 0 va)) ht).symm

/-- One page: its entry is emptied, then its frame is freed. -/
theorem freeLeaf_spec (h : TreeOk s.mem 2 root) (hva : va % 4096 = 0) :
    ∃ s' ps, s.freeLeaf root va = .ok s' ∧ Shrinks s root s' ps := by
  have hleaf : Phys.leafPte s.mem root va = leafAt s.mem root (vpn va) := leafPte_eq
  cases hf : userFrame (leafAt s.mem root (vpn va)) with
  | none =>
      refine ⟨s, [], ?_, .refl h⟩
      simp only [userFrame, ite_eq_right_iff, reduceCtorEq, imp_false, Bool.and_eq_true, not_and,
        Bool.not_eq_true] at hf
      cases hv : pteHas (leafAt s.mem root (vpn va)) pteV with
      | false => simp [Phys.freeLeaf, hleaf, hv]
      | true => simp [Phys.freeLeaf, hleaf, hv, hf hv]
  | some pa =>
      have hcond : pteHas (leafAt s.mem root (vpn va)) pteV = true ∧
          pteHas (leafAt s.mem root (vpn va)) pteU = true ∧
          pte2pa (leafAt s.mem root (vpn va)) = pa := by
        simpa [userFrame, and_assoc] using hf
      obtain ⟨hv, hu, hpa⟩ := hcond
      obtain ⟨s₁, h1⟩ : ∃ s₁, s.unmapPage root va = .ok s₁ := unmapPage_total hva
      obtain ⟨_, m, rfl, hm⟩ := unmapPage_mem (tables_distinct h.distinct) h.aligned h1
      have hal : pa % 4096 = 0 := userFrame_aligned hf
      have hnt : ¬IsTable s.mem root pa := frame_not_table h.distinct hf
      have hpush : Pushes (IsTable s.mem root) s (Phys.freePage { s with mem := m } pa) [pa] :=
        (Pushes.refl.write (fun _ _ hq => absurd hq List.not_mem_nil) hm.outside).push hal List.not_mem_nil
      refine ⟨Phys.freePage { s with mem := m } pa, [pa], ?_, ?_⟩
      · simp only [Phys.freeLeaf, hleaf, hv, hu, Bool.not_true, Bool.or_self, Bool.false_eq_true,
          ↓reduceIte, h1, ok_bind, hpa]
      -- the freed page is no table, so the map is the one `unmap_page` left
      have hmem : ∀ a, IsTable m root (pageOf a) →
          (Phys.freePage { s with mem := m } pa).mem a = m a := fun a ha => by
        refine Phys.freePage_outside hal fun he => hnt ?_
        rw [← he, ← isTable_congr hm.tables]
        exact ha
      have halt : ∀ pg, IsTable m root pg → pg % 4096 = 0 := fun pg hpg => isTable_aligned h.aligned hpg
      have htab := (tableAt_congr hmem halt).trans hm.tables
      have hl := (leafAt_congr hmem halt).trans hm.leaf
      have hspace : ∀ q x, spaceAt (Phys.freePage { s with mem := m } pa).mem root q = some x ↔
          spaceAt s.mem root q = some x ∧ x ≠ pa := by
        intro q x
        constructor
        · intro hq
          rcases spaceAt_cases hq with ht | ⟨v, rfl, hx⟩
          · rw [htab] at ht
            exact ⟨spaceAt_of_table ht, fun he => hnt ⟨q, he ▸ ht⟩⟩
          · rw [hl] at hx
            by_cases he : v = vpn va
            · rw [he, Function.update_self, userFrame_zero] at hx
              cases hx
            · rw [Function.update_of_ne he] at hx
              exact ⟨spaceAt_leaf.trans hx, fun hxp => he (frame_inj h.distinct (hxp ▸ hx) hf)⟩
        · rintro ⟨hq, hne⟩
          rcases spaceAt_cases hq with ht | ⟨v, rfl, hx⟩
          · rw [← htab] at ht
            exact spaceAt_of_table ht
          · have he : v ≠ vpn va := fun he => hne (Option.some.inj (hx.symm.trans (he ▸ hf)))
            rw [spaceAt_leaf, hl, Function.update_of_ne he, hx]
      have hleaves : ∀ v, leafAt (Phys.freePage { s with mem := m } pa).mem root v = leafAt s.mem root v ∨
          leafAt (Phys.freePage { s with mem := m } pa).mem root v = 0 := fun v => by
        by_cases he : v = vpn va
        · exact .inr (by rw [hl, he, Function.update_self])
        · exact .inl (by rw [hl, Function.update_of_ne he])
      refine ⟨hpush, ⟨h.aligned, h.lt, fun p q x hp hq => ?_, leavesOk_root fun v hv => ?_⟩, fun pg => ?_,
        fun pg hin => ?_, hleaves, htab⟩
      · exact h.distinct p q x ((hspace p x).mp hp).1 ((hspace q x).mp hq).1
      · rcases hleaves v with he | he
        · rw [he] at hv ⊢
          exact h.rwx hv
        · rw [he, pteHas_zero] at hv
          cases hv
      · rw [List.mem_singleton]
        constructor
        · rintro ⟨q, hq⟩
          by_cases hx : pg = pa
          · exact .inr hx
          · exact .inl ⟨q, (hspace q pg).mpr ⟨hq, hx⟩⟩
        · rintro (⟨q, hq⟩ | rfl)
          · exact ⟨q, ((hspace q pg).mp hq).1⟩
          · exact inSpace_of_frame hf
      · obtain ⟨q, hq⟩ := hin
        rw [List.mem_singleton]
        exact ((hspace q pg).mp hq).2

theorem freeLeaves_spec {k : Nat} (h : TreeOk s.mem 2 root) (hva : va % 4096 = 0) :
    ∃ s' ps, s.freeLeaves root va k = .ok s' ∧ Shrinks s root s' ps := by
  induction k generalizing s va with
  | zero => exact ⟨s, [], rfl, .refl h⟩
  | succ k ih =>
      obtain ⟨s₁, ps₁, h1, hd1⟩ := freeLeaf_spec h hva
      obtain ⟨s₂, ps₂, h2, hd2⟩ := ih hd1.tree (by omega : (va + 4096) % 4096 = 0)
      exact ⟨s₂, _, by rw [Phys.freeLeaves, h1, ok_bind, h2], hd1.trans hd2⟩

/-! ## The page tables -/

/-- Round `i` of `free_pagetable` frees the pages below entry `i` and keeps the other entries. -/
structure EntryFreed (m : Mem) (t : Phys) (lvl pt : Nat) (i : Fin 512) (t' : Phys) (ps : List Nat) :
    Prop where
  pushes : Pushes (fun pg => pg = pt ∨ Below m lvl pt i pg) t t' ps
  freed : ∀ pg, pg ∈ ps ↔ Below m lvl pt i pg
  other : ∀ j, j ≠ i → pteAt t'.mem pt j = pteAt t.mem pt j

/-- The entry is cleared at the end of the round. -/
theorem EntryFreed.of_pushes (h : TreeOk m lvl pt) (hp : Pushes (Below m lvl pt i) t t' ps)
    (hps : ∀ pg, pg ∈ ps ↔ Below m lvl pt i pg) :
    EntryFreed m t lvl pt i { t' with mem := setPte t'.mem pt i 0 } ps := by
  have hne : ¬Below m lvl pt i pt := fun hb => h.below_ne hb rfl
  refine ⟨(hp.mono fun _ => .inr).write (fun a _ hq => ?_) fun a ha => ?_, hps, fun j hj => ?_⟩
  · have hb : pageOf a ≠ pt := h.below_ne ((hps _).mp hq)
    rw [ne_eq, pageOf_eq_iff h.aligned] at hb
    have := i.isLt
    exact store64_outside (by omega)
  · have hb : pageOf a ≠ pt := fun he => ha (.inl he)
    rw [ne_eq, pageOf_eq_iff h.aligned] at hb
    have := i.isLt
    exact store64_outside (by omega)
  · have h1 : pteAt (setPte t'.mem pt i 0) pt j = pteAt t'.mem pt j :=
      pteAt_setPte_other h.aligned h.aligned fun _ => hj
    refine h1.trans (pteAt_congr fun x hx hx' => ?_)
    have he : pageOf x = pt := (pageOf_eq_iff h.aligned).mpr ⟨hx, hx'⟩
    exact hp.mem (by rwa [he, hps]) (by rwa [he])

/-- An entry below which there is nothing is only cleared, if it is written at all. -/
theorem EntryFreed.of_empty (h : TreeOk m lvl pt) (hb : ∀ pg, ¬Below m lvl pt i pg) :
    EntryFreed m t lvl pt i t [] ∧
      EntryFreed m t lvl pt i { t with mem := setPte t.mem pt i 0 } [] :=
  have hps : ∀ pg, pg ∈ [] ↔ Below m lvl pt i pg := fun pg => by simp [hb pg]
  ⟨⟨.refl, hps, fun _ _ => rfl⟩, .of_pushes h .refl hps⟩

theorem freeEntry_leaf (h : TreeOk m 0 pt) (he : pteAt t.mem pt i = pteAt m pt i) :
    ∃ t' ps, Phys.freeEntry (fun _ _ => .error .badTable) true pt t i = .ok t' ∧
      EntryFreed m t 0 pt i t' ps := by
  have hbelow : ∀ pg, Below m 0 pt i pg ↔ userFrame (pteAt m pt i) = some pg := by
    intro pg
    constructor
    · rintro ⟨q, hq⟩
      cases q with
      | nil => exact hq
      | cons j q => simp at hq
    · exact fun hq => ⟨[], hq⟩
  unfold Phys.freeEntry
  rw [he]
  cases hv : pteHas (pteAt m pt i) pteV with
  | false =>
      have hb : ∀ pg, ¬Below m 0 pt i pg := fun pg => by
        rw [hbelow, userFrame, hv]
        simp
      exact ⟨t, [], by simp [hv], (EntryFreed.of_empty h hb).1⟩
  | true =>
      have hr : pteHas (pteAt m pt i) (pteR ||| pteW ||| pteX) = true := h.leaves [i] _ rfl rfl hv
      simp only [hv, hr, Bool.not_true, Bool.false_eq_true, Bool.and_self, ↓reduceIte, ok_bind]
      cases hu : pteHas (pteAt m pt i) pteU with
      | false =>
          have hb : ∀ pg, ¬Below m 0 pt i pg := fun pg => by
            rw [hbelow, userFrame, hu]
            simp
          exact ⟨_, [], rfl, (EntryFreed.of_empty h hb).2⟩
      | true =>
          have hb : ∀ pg, pg ∈ [pte2pa (pteAt m pt i)] ↔ Below m 0 pt i pg := fun pg => by
            rw [hbelow, userFrame, hv, hu]
            simp [eq_comm]
          exact ⟨_, _, rfl, .of_pushes h (Pushes.refl.push (pte2pa_aligned _) List.not_mem_nil) hb⟩

theorem freeEntry_table (h : TreeOk m (lvl + 1) pt) (he : pteAt t.mem pt i = pteAt m pt i)
    (hm : ∀ a, Below m (lvl + 1) pt i (pageOf a) → t.mem a = m a)
    (ih : ∀ {s pt}, TreeOk s.mem lvl pt → ∃ s' ps, Phys.freePagetable lvl s pt = .ok s' ∧
      Pushes (fun pg => pg = pt ∨ ∃ i, Below s.mem lvl pt i pg) s s' ps ∧
      ∀ pg, pg ∈ ps ↔ ∃ i, Below s.mem lvl pt i pg) :
    ∃ t' ps, Phys.freeEntry (Phys.freePagetable lvl) false pt t i = .ok t' ∧
      EntryFreed m t (lvl + 1) pt i t' ps := by
  unfold Phys.freeEntry
  rw [he]
  cases hv : pteHas (pteAt m pt i) pteV with
  | false =>
      have hb : ∀ pg, ¬Below m (lvl + 1) pt i pg := by
        rintro pg ⟨q, hq⟩
        simp [pteNext, hv] at hq
      exact ⟨t, [], by simp [hv], (EntryFreed.of_empty h hb).1⟩
  | true =>
      have hx : pteNext (pteAt m pt i) = some (pte2pa (pteAt m pt i)) := by simp [pteNext, hv]
      obtain ⟨hc, hsame⟩ := h.child hx hm
      obtain ⟨s₁, ps₁, h1, hp1, hb1⟩ := ih hc
      have hb : ∀ pg, Below m (lvl + 1) pt i pg ↔
          pg = pte2pa (pteAt m pt i) ∨ ∃ j, Below t.mem lvl (pte2pa (pteAt m pt i)) j pg := by
        intro pg
        constructor
        · rintro ⟨q, hq⟩
          rw [held_cons, hx, Option.bind_some] at hq
          cases q with
          | nil =>
              rw [held_nil, Option.some.injEq] at hq
              exact .inl hq.symm
          | cons j q => exact .inr ⟨j, q, (hsame _).trans hq⟩
        · rintro (rfl | ⟨j, q, hq⟩)
          · exact ⟨[], by rw [held_cons, hx, Option.bind_some, held_nil]⟩
          · refine ⟨j :: q, ?_⟩
            rw [held_cons, hx, Option.bind_some, ← hsame, hq]
      have hnot : pte2pa (pteAt m pt i) ∉ ps₁ := fun hmem => by
        obtain ⟨j, hj⟩ := (hb1 _).mp hmem
        exact hc.below_ne hj rfl
      have hpush := (hp1.mono fun pg => (hb pg).mpr).push (pte2pa_aligned _) hnot
      refine ⟨_, _, ?_, .of_pushes h hpush fun pg => ?_⟩
      · simp only [hv, Bool.not_true, Bool.false_eq_true, Bool.and_false, ↓reduceIte, h1, ok_bind]
      · rw [List.mem_cons, hb1, hb]

/-- The loop of `free_pagetable`, from a lemma about its rounds. -/
theorem freeEntries_spec {sub : Phys → Nat → Except Halt Phys} {leaf : Bool} (h : TreeOk s.mem lvl pt)
    (hentry : ∀ i t, (∀ a, Below s.mem lvl pt i (pageOf a) → t.mem a = s.mem a) →
      pteAt t.mem pt i = pteAt s.mem pt i →
      ∃ t' ps, Phys.freeEntry sub leaf pt t i = .ok t' ∧ EntryFreed s.mem t lvl pt i t' ps) :
    ∃ s' ps, (List.finRange 512).foldlM (Phys.freeEntry sub leaf pt) s = .ok s' ∧
      Pushes (fun pg => pg = pt ∨ ∃ i, Below s.mem lvl pt i pg) s s' ps ∧
      ∀ pg, pg ∈ ps ↔ ∃ i, Below s.mem lvl pt i pg := by
  obtain ⟨s', hok, ps, hp, hps, _⟩ := foldlM_total (l := List.finRange 512)
    (f := Phys.freeEntry sub leaf pt) (s := s)
    (I := fun pre t => ∃ ps, Pushes (fun pg => pg = pt ∨ ∃ i ∈ pre, Below s.mem lvl pt i pg) s t ps ∧
      (∀ pg, pg ∈ ps ↔ ∃ i ∈ pre, Below s.mem lvl pt i pg) ∧
      ∀ j, j ∉ pre → pteAt t.mem pt j = pteAt s.mem pt j)
    ⟨[], .refl, by simp, fun _ _ => rfl⟩
    fun pre i post t hl ⟨ps, hp, hps, hrest⟩ => by
      have hi : i ∉ pre := fun hi => by
        have hnd := List.nodup_finRange 512
        rw [hl] at hnd
        exact (List.nodup_append.mp hnd).2.2 i hi i (by simp) rfl
      -- what hangs below entry `i` hangs below no earlier one
      have hnot : ∀ pg, Below s.mem lvl pt i pg → pg ∉ ps := fun pg hb hmem => by
        obtain ⟨j, hj, hbj⟩ := (hps pg).mp hmem
        exact hi (h.below_inj hb hbj ▸ hj)
      have hroot : pt ∉ ps := fun hmem => by
        obtain ⟨j, _, hb⟩ := (hps pt).mp hmem
        exact h.below_ne hb rfl
      obtain ⟨t', ps', hok, he⟩ := hentry i t (fun a hb => hp.mem (hnot _ hb) (by
        rintro (he | ⟨j, hj, hbj⟩)
        · exact h.below_ne hb he
        · exact hnot _ hb ((hps _).mpr ⟨j, hj, hbj⟩))) (hrest i hi)
      have hmem : ∀ pg, (∃ j ∈ pre ++ [i], Below s.mem lvl pt j pg) ↔
          Below s.mem lvl pt i pg ∨ ∃ j ∈ pre, Below s.mem lvl pt j pg := fun pg => by
        simp only [List.mem_append, List.mem_singleton]
        constructor
        · rintro ⟨j, hj | rfl, hb⟩
          · exact .inr ⟨j, hj, hb⟩
          · exact .inl hb
        · rintro (hb | ⟨j, hj, hb⟩)
          · exact ⟨i, .inr rfl, hb⟩
          · exact ⟨j, .inl hj, hb⟩
      refine ⟨t', hok, ps' ++ ps, ?_, fun pg => ?_, fun j hj => ?_⟩
      · refine (hp.trans he.pushes (fun pg hpg => hnot pg ((he.freed pg).mp hpg)) ?_).mono fun pg hpg => ?_
        · rintro pg (rfl | hpg)
          · exact hroot
          · exact hnot pg hpg
        · rw [hmem]
          rcases hpg with (hpt | hb) | hpt | hb
          · exact .inl hpt
          · exact .inr (.inr hb)
          · exact .inl hpt
          · exact .inr (.inl hb)
      · rw [List.mem_append, he.freed, hps, hmem]
      · simp only [List.mem_append, List.mem_singleton, not_or] at hj
        rw [he.other j hj.2, hrest j hj.1]
  exact ⟨s', ps, hok, hp.mono (fun pg => Or.imp_right fun ⟨i, _, hb⟩ => ⟨i, hb⟩), fun pg => by simp [hps]⟩

/-- The recursion of `free_pagetable`: every page below the table is freed once. -/
theorem freePagetable_spec (h : TreeOk s.mem lvl pt) :
    ∃ s' ps, Phys.freePagetable lvl s pt = .ok s' ∧
      Pushes (fun pg => pg = pt ∨ ∃ i, Below s.mem lvl pt i pg) s s' ps ∧
      ∀ pg, pg ∈ ps ↔ ∃ i, Below s.mem lvl pt i pg := by
  induction lvl generalizing s pt with
  | zero => exact freeEntries_spec h fun i t _ he => freeEntry_leaf h he
  | succ lvl ih => exact freeEntries_spec h fun i t hm he => freeEntry_table h he hm ih

/-! ## A whole space -/

/-- `process_free_userspace` pushes exactly the pages of the space, whatever its first loop finds. -/
theorem freeTree_spec (h : TreeOk s.mem 2 root) (k : Nat) :
    ∃ s₁ s₂ ps, s.freeLeaves root userBase k = .ok s₁ ∧ Phys.freePagetable 2 s₁ root = .ok s₂ ∧
      Pushes (InSpace s.mem root) s (s₂.freePage root) ps ∧ ∀ pg, pg ∈ ps ↔ InSpace s.mem root pg := by
  obtain ⟨s₁, ps₁, h1, hd1⟩ := freeLeaves_spec (k := k) h (by decide : userBase % 4096 = 0)
  obtain ⟨s₂, ps₂, h2, hp2, hb2⟩ := freePagetable_spec hd1.tree
  have hin : ∀ pg, InSpace s₁.mem root pg ↔ pg ∈ root :: ps₂ := fun pg => by
    rw [inSpace_iff_below, List.mem_cons, hb2]
  have hroot : root ∉ ps₂ := fun hmem => by
    obtain ⟨i, hi⟩ := (hb2 root).mp hmem
    exact hd1.tree.below_ne hi rfl
  have hlast := hp2.push h.aligned hroot
  have hall := hd1.pushes.trans hlast (fun pg hpg => hd1.gone pg ((hin pg).mpr hpg))
    fun pg hpg => hd1.gone pg (inSpace_iff_below.mpr hpg)
  have hps : ∀ pg, pg ∈ root :: ps₂ ++ ps₁ ↔ InSpace s.mem root pg := fun pg => by
    rw [List.mem_append, ← hin, hd1.split]
  refine ⟨s₁, s₂, _, h1, h2, hall.mono fun pg hpg => ?_, hps⟩
  rcases hpg with hpg | hpg
  · exact hpg.inSpace
  · rw [hd1.split, inSpace_iff_below]
    exact .inl hpg

theorem SpaceOk.treeOk (h : SpaceOk L s F root)
    (hr : ∀ v, pteHas (leafAt s.mem root v) pteV → pteHas (leafAt s.mem root v) pteRWX) :
    TreeOk s.mem 2 root :=
  have hroot := (h.page root inSpace_root).1
  ⟨hroot.aligned, Nat.lt_trans (Nat.lt_of_add_right_lt hroot.lt_64) (by decide), h.distinct, leavesOk_root hr⟩

/-- For the allocator, the pages of the space are available again. -/
theorem freeSpace_spec (hs : AllocOk L s F) (ht : TrackOk L s F) (h : SpaceOk L s F root)
    (hr : ∀ v, pteHas (leafAt s.mem root v) pteV → pteHas (leafAt s.mem root v) pteRWX) (k : Nat) :
    ∃ s₁ s₂ F', s.freeLeaves root userBase k = .ok s₁ ∧ Phys.freePagetable 2 s₁ root = .ok s₂ ∧
      Frees L s F (s₂.freePage root) F' (InSpace s.mem root) fun _ => False := by
  obtain ⟨s₁, s₂, ps, h1, h2, hp, hps⟩ := freeTree_spec (h.treeOk hr) k
  have hf := hp.frees hs ht (fun pg hpg => h.page pg ((hps pg).mp hpg)) fun pg hpg => (h.page pg hpg).2
  exact ⟨s₁, s₂, _, h1, h2, hf.congr _ _ hps fun pg hpg => .inl hpg⟩

/-! ## The sweep over the tracked allocations -/

/-- The entry `i` of the table records a page under `pid`. -/
def Tracked (s : Phys) (pid : Nat) (i : Fin maxTrackedAllocs) : Bool :=
  (s.allocTable i).used && (s.allocTable i).owner == pid

/-- One entry. -/
theorem Frees.freeTracked {pid : Nat} {i : Fin maxTrackedAllocs} (hs : AllocOk L s F) (ht : TrackOk L s F)
    (hi : Tracked s pid i) :
    Frees L s F (s.freeTracked pid i) ((s.allocTable i).pa :: F) (· = (s.allocTable i).pa)
      fun _ => False := by
  have hu : (s.allocTable i).used := by
    simp only [Tracked, Bool.and_eq_true] at hi
    exact hi.1
  obtain ⟨hp, hna⟩ := ht.taken i hu
  have hf := Frees.freePage hs ht hp hna
  have hone : s.freeEach (s.allocTable i).pa 0 (s.allocTable i).npages = s.freePage (s.allocTable i).pa := by
    have := hp.lt_64
    rw [ht.one i hu, Phys.freeEach, Phys.freeEach, Nat.zero_mul, Nat.add_zero,
      Nat.mod_eq_of_lt (by omega)]
  have htr : s.freeTracked pid i =
      { s.freePage (s.allocTable i).pa with
        allocTable := Function.update (s.freePage (s.allocTable i).pa).allocTable i {}
        allocTableCount := dec64 (s.freePage (s.allocTable i).pa).allocTableCount } := by
    simp only [Tracked] at hi
    simp only [Phys.freeTracked, hi, ↓reduceIte, hone]
  rw [htr]
  generalize s.freePage (s.allocTable i).pa = t at hf
  have hgone : ∀ j, (Function.update t.allocTable i {} j).used → j ≠ i ∧ (t.allocTable j).used := by
    intro j hj
    by_cases hji : j = i
    · subst hji
      simp at hj
    · rw [Function.update_of_ne hji] at hj
      exact ⟨hji, hj⟩
  have hkeep : ∀ j, j ≠ i → Function.update t.allocTable i {} j = t.allocTable j :=
    fun j hj => Function.update_of_ne hj _ _
  refine ⟨⟨hf.ok.chain, hf.ok.count, hf.ok.page, hf.ok.next_aligned, hf.ok.next_ge, hf.ok.next_le⟩,
    ⟨fun j hj => ?_, fun j hj => ?_, fun j l hj hl => ?_⟩, hf.avail, hf.was, hf.mem, hf.next,
    fun j hj => ?_, fun j hj hne => ?_, hf.list⟩
  · obtain ⟨hji, hj'⟩ := hgone j hj
    simp only [hkeep j hji]
    exact hf.track.one j hj'
  · obtain ⟨hji, hj'⟩ := hgone j hj
    simp only [hkeep j hji]
    exact hf.track.taken j hj'
  · obtain ⟨hji, hj'⟩ := hgone j hj
    obtain ⟨hli, hl'⟩ := hgone l hl
    simp only [hkeep j hji, hkeep l hli]
    exact hf.track.inj j l hj' hl'
  · obtain ⟨hji, hj'⟩ := hgone j hj
    simp only [hkeep j hji]
    exact hf.table j hj'
  · have hji : j ≠ i := fun he => hne (by rw [he])
    simp only [hkeep j hji]
    exact hf.kept j hj hne

theorem Frees.freeTrackedList {pid : Nat} {l : List (Fin maxTrackedAllocs)} (hl : l.Nodup)
    (hs : AllocOk L s F) (ht : TrackOk L s F) :
    Frees L s F (l.foldl (Phys.freeTracked pid) s)
      (((l.filter (Tracked s pid)).map fun i => (s.allocTable i).pa).reverse ++ F)
      (fun pg => ∃ i ∈ l, Tracked s pid i ∧ (s.allocTable i).pa = pg) fun _ => False := by
  induction l generalizing s F with
  | nil => exact (Frees.refl hs ht).congr _ _ (fun pg => by simp) fun _ h => .inr h
  | cons i l ih =>
      obtain ⟨hil, hl⟩ := List.nodup_cons.mp hl
      rw [List.foldl_cons]
      cases hi : Tracked s pid i with
      | false =>
          have hsame : s.freeTracked pid i = s := by
            simp only [Tracked] at hi
            simp only [Phys.freeTracked, hi, Bool.false_eq_true, ↓reduceIte]
          rw [hsame, List.filter_cons_of_neg (by simp [hi])]
          refine (ih hl hs ht).congr _ _ (fun pg => ?_) fun _ h => .inr h
          simp [hi]
      | true =>
          have hf := Frees.freeTracked hs ht hi
          have hu : (s.allocTable i).used := by
            simp only [Tracked, Bool.and_eq_true] at hi
            exact hi.1
          -- the entries of the rest of the list are untouched
          have hrest : ∀ j ∈ l, Tracked (s.freeTracked pid i) pid j = Tracked s pid j ∧
              (Tracked s pid j → (s.freeTracked pid i).allocTable j = s.allocTable j) := by
            intro j hj
            have hji : j ≠ i := fun he => hil (he ▸ hj)
            have hkept : (s.allocTable j).used → (s.freeTracked pid i).allocTable j = s.allocTable j :=
              fun hju => hf.kept j hju fun he => hji (ht.inj j i hju hu he)
            constructor
            · cases hju : (s.allocTable j).used with
              | true => simp only [Tracked, hkept hju]
              | false =>
                  have hju' : ((s.freeTracked pid i).allocTable j).used = false := by
                    by_contra hne
                    have := hf.table j (by simpa using hne)
                    rw [this, hju] at hne
                    exact hne rfl
                  simp only [Tracked, hju, hju', Bool.false_and]
            · intro hj'
              simp only [Tracked, Bool.and_eq_true] at hj'
              exact hkept hj'.1
          have hfil : l.filter (Tracked (s.freeTracked pid i) pid) = l.filter (Tracked s pid) :=
            List.filter_congr fun j hj => (hrest j hj).1
          have hmap : (l.filter (Tracked s pid)).map (fun j => ((s.freeTracked pid i).allocTable j).pa) =
              (l.filter (Tracked s pid)).map fun j => (s.allocTable j).pa := by
            refine List.map_congr_left fun j hj => ?_
            obtain ⟨hj, hjt⟩ := List.mem_filter.mp hj
            rw [(hrest j hj).2 hjt]
          have hih := ih (s := s.freeTracked pid i) hl hf.ok hf.track
          rw [hfil, hmap] at hih
          rw [List.filter_cons_of_pos hi, List.map_cons, List.reverse_cons, List.append_assoc,
            List.singleton_append]
          refine (hf.trans hih).congr _ _ (fun pg => ?_) fun _ h => h.elim False.elim False.elim
          constructor
          · rintro (rfl | ⟨j, hj, hjt, rfl⟩)
            · exact ⟨i, by simp, hi, rfl⟩
            · have hjt' := (hrest j hj).1 ▸ hjt
              exact ⟨j, by simp [hj], hjt', by rw [(hrest j hj).2 hjt']⟩
          · rintro ⟨j, hj, hjt, rfl⟩
            rcases List.mem_cons.mp hj with rfl | hj
            · exact .inl rfl
            · exact .inr ⟨j, hj, (hrest j hj).1.symm ▸ hjt, by rw [(hrest j hj).2 hjt]⟩

/-- `free_all_tracked_for_pid` gives back every page that the table records under the pid. -/
theorem sweep_spec (hs : AllocOk L s F) (ht : TrackOk L s F) (pid : Nat) :
    Frees L s F (s.freeAllTrackedForPid pid)
      ((((List.finRange maxTrackedAllocs).filter (Tracked s pid)).map fun i => (s.allocTable i).pa).reverse
        ++ F)
      (fun pg => ∃ i, Tracked s pid i ∧ (s.allocTable i).pa = pg) fun _ => False :=
  (Frees.freeTrackedList (List.nodup_finRange _) hs ht).congr _ _ (fun pg => by simp) fun _ h => h.elim

end RiscvOs
