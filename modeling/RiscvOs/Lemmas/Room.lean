import RiscvOs.Lemmas.FreeSpace

/-!
# Room

When the loops that build an address space succeed. A space needs a bounded number of tables, so that the
room and the tables already there bound what `map_page` can still do.
-/

namespace RiscvOs

open ByteMem Outcome

variable {L : Layout} {s s' t : Phys} {F F' F₀ : List Nat} {s₀ : Phys} {m m' : Mem}
  {o root pt pa va flags a n k : Nat} {i : Fin 512} {p : List (Fin 512)} {v : Vpn} {S : Vpn → Prop}
  {C : Vpn → Nat → UInt8 → Prop}

/-- The addresses that boot and programs map: the first 512 MiB, and those of the machine's memory. -/
def LowVa (va : Nat) : Prop := va < 0x20000000 ∨ 0x80000000 ≤ va ∧ va < 0xA0000000

/-- The paths of the tables for these addresses. -/
def tablePaths : Finset (List (Fin 512)) :=
  ({0, 2} : Finset (Fin 512)).image (fun i => [i]) ∪
    (({0, 2} : Finset (Fin 512)) ×ˢ (Finset.range 256).image (Fin.ofNat 512)).image fun p => [p.1, p.2]

theorem card_tablePaths : tablePaths.card ≤ 514 := by
  have h1 : (({0, 2} : Finset (Fin 512)).image fun i => [i]).card ≤ 2 := Finset.card_image_le
  have h2 : ((({0, 2} : Finset (Fin 512)) ×ˢ (Finset.range 256).image (Fin.ofNat 512)).image
      fun p => [p.1, p.2]).card ≤ 2 * 256 := by
    refine Finset.card_image_le.trans ?_
    rw [Finset.card_product]
    exact Nat.mul_le_mul (by decide) (Finset.card_image_le.trans_eq (Finset.card_range 256))
  exact (Finset.card_union_le _ _).trans (by omega)

theorem LowVa.top (h : LowVa va) : px 2 va = 0 ∨ px 2 va = 2 := by
  have hpx : (px 2 va : Nat) = va / 2 ^ 30 % 512 := by
    simp only [px, Nat.shiftRight_eq_div_pow]
    exact Nat.and_two_pow_sub_one_eq_mod _ 9
  rcases h with h | h
  · refine .inl (Fin.ext ?_)
    rw [hpx]
    show _ = 0
    omega
  · refine .inr (Fin.ext ?_)
    rw [hpx]
    show _ = 2
    omega

theorem LowVa.mid (h : LowVa va) : (px 1 va : Nat) < 256 := by
  have hpx : (px 1 va : Nat) = va / 2 ^ 21 % 512 := by
    simp only [px, Nat.shiftRight_eq_div_pow]
    exact Nat.and_two_pow_sub_one_eq_mod _ 9
  rcases h with h | h <;> omega

theorem LowVa.mem_one (h : LowVa va) : [px 2 va] ∈ tablePaths := by
  refine Finset.mem_union_left _ (Finset.mem_image.mpr ⟨px 2 va, ?_, rfl⟩)
  rcases h.top with h | h <;> rw [h] <;> decide

theorem LowVa.mem_two (h : LowVa va) : [px 2 va, px 1 va] ∈ tablePaths := by
  refine Finset.mem_union_right _ (Finset.mem_image.mpr ⟨(px 2 va, px 1 va), ?_, rfl⟩)
  refine Finset.mem_product.mpr ⟨?_, Finset.mem_image.mpr ⟨px 1 va, Finset.mem_range.mpr h.mid, ?_⟩⟩
  · show px 2 va ∈ _
    rcases h.top with h | h <;> rw [h] <;> decide
  · exact Fin.ext (Nat.mod_eq_of_lt (px 1 va).isLt)

/-- The paths of `tablePaths` at which there is a table. -/
def present (m : Mem) (root : Nat) : Finset (List (Fin 512)) :=
  tablePaths.filter fun q => (tableAt m root q).isSome

/-- The room for pages, with the tables of the space that are already there. -/
def Phys.slack (L : Layout) (s : Phys) (root : Nat) : Nat := s.room L + (present s.mem root).card

theorem present_congr (h : tableAt m' root = tableAt m root) : present m' root = present m root := by
  unfold present
  rw [h]

theorem Phys.room_le_slack (L : Layout) (s : Phys) (root : Nat) : s.room L ≤ s.slack L root := Nat.le_add_right _ _

/-- A table that is missing leaves room for a page. -/
theorem room_of_missing (hp : p ∈ tablePaths) (hnone : tableAt s.mem root p = none)
    (hr : 514 ≤ s.slack L root) : 1 ≤ s.room L := by
  have hlt : (present s.mem root).card < tablePaths.card := by
    refine Finset.card_lt_card ((Finset.filter_ssubset).mpr ⟨p, hp, ?_⟩)
    rw [hnone]
    simp
  have := card_tablePaths
  unfold Phys.slack at hr
  omega

theorem nextTable_slack (hs : AllocOk L s F) (ht : TrackOk L s F) (h : TablesOk L s F root)
    (hp : tableAt s.mem root p = some pt) (hl : p.length ≤ 1) (hmem : p ++ [i] ∈ tablePaths)
    (hr : 514 ≤ s.slack L root) :
    ∃ x s' F', s.nextTable L o pt i = .ok (x, s') ∧
      NextTable L o s F root (p ++ [i]) pt x s' F' ∧ s.slack L root ≤ s'.slack L root := by
  cases hx : tableAt s.mem root (p ++ [i]) with
  | some x =>
      have hv : pteHas (pteAt s.mem pt i) pteV := by
        rw [tableAt_snoc hp hl, pteNext, Option.ite_none_right_eq_some] at hx
        exact hx.1
      have hok : s.nextTable L o pt i = .ok (pte2pa (pteAt s.mem pt i), s) := by
        rw [Phys.nextTable, if_pos hv]
      obtain ⟨F', hn⟩ := nextTable_spec hs ht h hp hl hok
      exact ⟨_, s, F', hok, hn, Nat.le_refl _⟩
  | none =>
      obtain ⟨x, s', hok, hroom⟩ :=
        nextTable_room o pt i hs (room_of_missing hmem hx hr)
      obtain ⟨F', hn⟩ := nextTable_spec hs ht h hp hl hok
      refine ⟨x, s', F', hok, hn, ?_⟩
      have hpres : present s'.mem root = insert (p ++ [i]) (present s.mem root) := by
        ext q
        simp only [present, Finset.mem_insert, Finset.mem_filter]
        by_cases hq : q = p ++ [i]
        · subst hq
          simp [hmem, hn.at_path]
        · rw [hn.other q hq]
          simp [hq]
      have hnew : p ++ [i] ∉ present s.mem root := by simp [present, hx]
      unfold Phys.slack
      rw [hpres, Finset.card_insert_of_notMem hnew]
      omega

/-- `map_page` of a low address succeeds while there is slack for all tables. -/
theorem mapPage_slack (hs : AllocOk L s F) (ht : TrackOk L s F) (h : TablesOk L s F root)
    (hva : va % 4096 = 0) (hpa : pa % 4096 = 0) (hlow : LowVa va) (hlt : pa < 2 ^ 56) (hf : flags < 1024)
    (hr : 514 ≤ s.slack L root) :
    ∃ s', s.mapPage L o root va pa flags = .ok s' ∧ s.slack L root ≤ s'.slack L root := by
  obtain ⟨l1, s₁, F₁, h1, hn1, hr1⟩ := nextTable_slack (o := o) (p := []) hs ht h tableAt_nil
    (by simp) hlow.mem_one hr
  obtain ⟨l0, s₂, F₂, h2, hn2, hr2⟩ := nextTable_slack (o := o) hn1.grows.ok hn1.grows.track
    hn1.tables hn1.at_path (by simp) hlow.mem_two (by omega)
  have hok : s.mapPage L o root va pa flags =
      .ok { s₂ with mem := setPte s₂.mem l0 (px 0 va) (pa2pte pa flags ||| pteV) } := by
    simp only [Phys.mapPage, hva, hpa, ne_eq, not_true_eq_false, ↓reduceIte, h1, h2, ok_bind]
  refine ⟨_, hok, ?_⟩
  have htab : tableAt (setPte s₂.mem l0 (px 0 va) (pa2pte pa flags ||| pteV)) root =
      tableAt s₂.mem root := by
    have hset := SetLeaf.of_setPte (v := vpn va) hn2.tables.distinct hn2.tables.root_aligned hn2.at_path
      (show pa2pte pa flags ||| pteV < 2 ^ 64 by rw [pa2pte_or]; exact pa2pte_lt hlt (or_pteV_lt hf))
    exact hset.tables
  have hslack : Phys.slack L { s₂ with mem := setPte s₂.mem l0 (px 0 va) (pa2pte pa flags ||| pteV) } root =
      s₂.slack L root := by
    unfold Phys.slack
    rw [present_congr htab]
    rfl
  omega

theorem mapRange_slack (hs : AllocOk L s F) (ht : TrackOk L s F) (h : TablesOk L s F root)
    (hva : va % 4096 = 0) (hpa : pa % 4096 = 0) (hlow : ∀ i < k, LowVa (va + 4096 * i))
    (hlt : pa + k * 4096 ≤ 2 ^ 56) (hf : flags < 1024) (hr : 514 ≤ s.slack L root) :
    ∃ s', s.mapRange L o root va pa flags k = .ok s' ∧ s.slack L root ≤ s'.slack L root := by
  induction k generalizing s F va pa with
  | zero => exact ⟨s, rfl, Nat.le_refl _⟩
  | succ k ih =>
      obtain ⟨s₁, h1, hr1⟩ := mapPage_slack (o := o) hs ht h hva hpa (hlow 0 (by omega)) (by omega) hf hr
      obtain ⟨_, _, F₁, hm⟩ := mapPage_spec hs ht h (by omega) hf h1
      obtain ⟨s₂, h2, hr2⟩ : ∃ s₂, s₁.mapRange L o root (va + 4096) (pa + 4096) flags k = .ok s₂ ∧
          s₁.slack L root ≤ s₂.slack L root :=
        ih hm.grows.ok hm.grows.track hm.tables (by omega) (by omega) (fun i hi => by
          have := hlow (i + 1) (by omega)
          rwa [show va + 4096 * (i + 1) = va + 4096 + 4096 * i by omega] at this) (by omega) (by omega)
      refine ⟨s₂, ?_, by omega⟩
      rw [Phys.mapRange, h1, ok_bind, h2]

/-- A page for the user takes one page of the slack. -/
theorem mapFresh_slack (hs : AllocOk L s F) (h : TablesOk L s F root)
    (hb : AllocBlock L o s F pa 1 t F') (hroom : t.room L + 1 = s.room L)
    (hm : ∀ y, pageOf y ≠ pa → m y = t.mem y) (hva : va % 4096 = 0) (hlow : LowVa va) (hf : flags < 1024)
    (hr : 515 ≤ s.slack L root) :
    ∃ s', { t with mem := m }.mapPage L o root va pa flags = .ok s' ∧
      s.slack L root ≤ s'.slack L root + 1 := by
  have hpa := hs.isPage hb.was_one
  have hlt := hpa.lt_64
  have hw : Grows L o t F' { t with mem := m } F' (· = pa) :=
    .write hb.grows.ok hb.grows.track hm fun pg hpg => hpg ▸ hb.not_avail
  have hmem : ∀ y, IsTable s.mem root (pageOf y) → m y = s.mem y := fun y hy => by
    have hna := (h.page _ hy).2
    rw [hm y fun he => hna (he ▸ hb.was_one), hb.grows.mem y hna id]
  have htab : tableAt m root = tableAt s.mem root := tableAt_congr hmem fun pg => h.aligned
  have htabs : TablesOk L { t with mem := m } F' root := h.congr hmem fun pg hpg hav =>
    (h.page pg hpg).2 (hb.grows.avail pg (hw.avail pg hav))
  have hslack : Phys.slack L { t with mem := m } root + 1 = s.slack L root := by
    unfold Phys.slack
    rw [present_congr htab]
    show t.room L + _ + 1 = _
    omega
  obtain ⟨s', hok, hs'⟩ := mapPage_slack (o := o) hw.ok hw.track htabs hva hpa.aligned hlow
    (by omega) hf (by omega : 514 ≤ Phys.slack L { t with mem := m } root)
  exact ⟨s', hok, by omega⟩

theorem mapCopy_slack (hs : AllocOk L s F) (ht : TrackOk L s F) (h : TablesOk L s F root)
    (hva : va % 4096 = 0) (hlow : LowVa va) (hf : flags < 1024) (hn : n ≤ 4096)
    (hr : 515 ≤ s.slack L root) :
    ∃ s', s.mapCopy L o root va flags a n = .ok s' ∧ s.slack L root ≤ s'.slack L root + 1 := by
  have hroom : 1 ≤ s.room L := by
    have := Finset.card_le_card (Finset.filter_subset (fun q => (tableAt s.mem root q).isSome) tablePaths)
    have := card_tablePaths
    unfold Phys.slack present at hr
    omega
  obtain ⟨pa, t, ha, hroom'⟩ := hs.allocPages_room (o := o) hroom
  obtain ⟨F', hb⟩ := allocPages_one hs ht ha
  have hpa := hs.isPage hb.was_one
  obtain ⟨s', hok, hs'⟩ := mapFresh_slack (m := memcpy t.mem pa a n) hs h hb hroom' (fun y hy => by
    rw [ne_eq, pageOf_eq_iff hpa.aligned] at hy
    exact memcpy_outside (by omega)) hva hlow hf hr
  refine ⟨s', ?_, hs'⟩
  rw [Phys.mapCopy, ha, ok_bind]
  exact hok

/-- The number of pages with a source among the `k` pages from `va` on. -/
def loopCount (f : Nat → Option (Nat × Nat)) (va k : Nat) : Nat :=
  ((Finset.range k).filter fun i => (f (va + 4096 * i)).isSome).card

theorem loopCount_succ (f : Nat → Option (Nat × Nat)) (va k : Nat) :
    loopCount f va (k + 1) = loopCount f (va + 4096) k + if (f va).isSome then 1 else 0 := by
  unfold loopCount
  rw [Finset.card_filter, Finset.card_filter, Finset.sum_range_succ']
  have hshift : ∀ i, va + 4096 * (i + 1) = va + 4096 + 4096 * i := fun i => by omega
  simp only [hshift, Nat.mul_zero, Nat.add_zero]

theorem loopCount_le {f : Nat → Option (Nat × Nat)} {A : Finset Nat}
    (h : ∀ i < k, (f (va + 4096 * i)).isSome → i ∈ A) : loopCount f va k ≤ A.card :=
  Finset.card_le_card fun i hi => by
    rw [Finset.mem_filter, Finset.mem_range] at hi
    exact h i hi.1 hi.2

/-- A loop over pages whose sources do not change while it runs. -/
theorem Extend.mapLoop_slack {src : Mem → Nat → Option (Nat × Nat)} {f : Nat → Option (Nat × Nat)}
    (h : Extend L o s₀ F₀ root s F S fun _ _ _ => True) (hf : flags < 1024) (hu : pteHas flags pteU)
    (hrw : pteHas flags pteR ∧ pteHas flags pteW) (hva : va % 4096 = 0) (hlow : ∀ i < k, LowVa (va + 4096 * i))
    (hsrc : ∀ t Ft, Grows L o s₀ F₀ t Ft (IsTable s₀.mem root) →
      ∀ i < k, src t.mem (va + 4096 * i) = f (va + 4096 * i))
    (hn : ∀ i < k, ∀ a n, f (va + 4096 * i) = some (a, n) → n ≤ 4096)
    (hr : 514 + loopCount f va k ≤ s.slack L root) :
    ∃ s', s.mapLoop L o root flags src va k = .ok s' ∧
      s.slack L root ≤ s'.slack L root + loopCount f va k := by
  induction k generalizing s F va S with
  | zero => exact ⟨s, rfl, Nat.le_add_right _ _⟩
  | succ k ih =>
      have hshift : ∀ i, va + 4096 * (i + 1) = va + 4096 + 4096 * i := fun i => by omega
      have hlow' : ∀ i < k, LowVa (va + 4096 + 4096 * i) := fun i hi => hshift i ▸ hlow (i + 1) (by omega)
      have hsrc' : ∀ t Ft, Grows L o s₀ F₀ t Ft (IsTable s₀.mem root) → ∀ i < k,
          src t.mem (va + 4096 + 4096 * i) = f (va + 4096 + 4096 * i) :=
        fun t Ft ht i hi => hshift i ▸ hsrc t Ft ht (i + 1) (by omega)
      have hn' : ∀ i < k, ∀ a n, f (va + 4096 + 4096 * i) = some (a, n) → n ≤ 4096 :=
        fun i hi => hshift i ▸ hn (i + 1) (by omega)
      have h0 : src s.mem va = f va := hsrc s F h.grows 0 (by omega)
      rw [loopCount_succ] at hr ⊢
      rw [Phys.mapLoop, h0]
      cases hfv : f va with
      | none =>
          simp only [hfv, Option.isSome_none, Bool.false_eq_true, ↓reduceIte, Nat.add_zero, ok_bind] at hr ⊢
          exact ih h (by omega) hlow' hsrc' hn' hr
      | some q =>
          obtain ⟨a, n⟩ := q
          simp only [hfv, Option.isSome_some, ↓reduceIte] at hr ⊢
          have hle : n ≤ 4096 := hn 0 (by omega) a n hfv
          obtain ⟨s₁, h1, hr1⟩ := mapCopy_slack (o := o) (a := a) h.grows.ok h.grows.track
            h.space.tables hva (hlow 0 (by omega)) hf hle (by omega)
          obtain ⟨F₁, hx, _⟩ := h.mapCopy hf hu hrw hle (fun _ _ _ _ _ => trivial) h1
          obtain ⟨s', h2, hr2⟩ := ih hx (by omega) hlow' hsrc' hn' (by omega)
          refine ⟨s', ?_, by omega⟩
          simp only [h1, ok_bind, h2]

/-! ## New spaces -/

theorem Phys.slack_le_room (L : Layout) (s : Phys) (root : Nat) : s.slack L root ≤ s.room L + 514 := by
  have := Finset.card_le_card (Finset.filter_subset (fun q => (tableAt s.mem root q).isSome) tablePaths)
  have := card_tablePaths
  unfold Phys.slack present
  omega

/-- A root with the identity map: it takes its own page, and its tables come out of the slack. -/
theorem identity_slack (hs : AllocOk L s F) (ht : TrackOk L s F) (hr : 515 ≤ s.room L) :
    ∃ root s₁ s₂, s.allocPages L o 1 = .ok (root, s₁) ∧
      s₁.mapRange L o root kernelBase kernelBase (pteV ||| pteRWX) (identityPages L) = .ok s₂ ∧
      s.room L ≤ s₂.slack L root + 1 := by
  obtain ⟨root, s₁, h1, hr1⟩ := hs.allocPages_room (o := o) (by omega)
  obtain ⟨F₁, hb⟩ := allocPages_one hs ht h1
  have hp := hs.isPage hb.was_one
  have htabs : TablesOk L s₁ F₁ root := .of_zero hp hb.not_avail (hb.zero hp)
  have he := identityPages_eq L
  have hend := L.freeRamEnd_lt
  have hslack := Phys.room_le_slack L s₁ root
  obtain ⟨s₂, h2, hr2⟩ : ∃ s₂, s₁.mapRange L o root kernelBase kernelBase (pteV ||| pteRWX)
      (identityPages L) = .ok s₂ ∧ s₁.slack L root ≤ s₂.slack L root :=
    mapRange_slack hb.grows.ok hb.grows.track htabs (by decide) (by decide) (fun i hi => .inr (by unfold kernelBase at *; omega)) (by omega) (by decide) (by omega)
  exact ⟨root, s₁, s₂, h1, h2, by omega⟩

theorem loopCount_le_rounds (f : Nat → Option (Nat × Nat)) (va k : Nat) : loopCount f va k ≤ k :=
  (loopCount_le fun _ hi _ => Finset.mem_range.mpr hi).trans_eq (Finset.card_range k)

/-- The pages of a program whose image has `n` pages, with root, heap and tables. -/
theorem buildSpace_slack {flatImage imageSize top bottom heapStart : Nat} (hs : AllocOk L s F)
    (ht : TrackOk L s F) (himg : userBase + imageSize ≤ 0x20000000) (hbot : bottom % 4096 = 0)
    (htop : top < 0x20000000) (hheap : heapStart % 4096 = 0) (hheap' : heapStart < 0x20000000)
    (hr : 517 + (imageSize + 4095) / 4096 + ((top - bottom) / 4096 + 1) ≤ s.room L) :
    ∃ root s', s.buildSpace L o flatImage imageSize top bottom heapStart = .ok (root, s') ∧
      s.room L ≤ s'.room L + 516 + (imageSize + 4095) / 4096 + ((top - bottom) / 4096 + 1) := by
  obtain ⟨root, s₁, s₂, h1, h2, hr2⟩ := identity_slack (o := o) hs ht (by omega)
  obtain ⟨F₁, hb⟩ := allocPages_one hs ht h1
  obtain ⟨F₂, hn, _⟩ := NewSpace.identity hb hs h2
  have he := Extend.refl (o := o) (C := fun _ _ _ => True) hn.grows.ok hn.grows.track hn.space
  -- the program
  have hc3 := loopCount_le_rounds (fun va => some (Phys.imageSource flatImage imageSize va)) userBase
    ((imageSize + 4095) / 4096)
  have hn3 : ∀ i < (imageSize + 4095) / 4096, ∀ a n,
      some (Phys.imageSource flatImage imageSize (userBase + 4096 * i)) = some (a, n) → n ≤ 4096 := by
    intro i _ a n ha
    simp only [Phys.imageSource, Option.some.injEq, Prod.mk.injEq] at ha
    obtain ⟨_, rfl⟩ := ha
    split <;> omega
  have hlow3 : ∀ i < (imageSize + 4095) / 4096, LowVa (userBase + 4096 * i) := by
    intro i hi
    unfold LowVa userBase at *
    omega
  obtain ⟨s₃, h3, hr3⟩ : ∃ s₃, s₂.mapLoop L o root (pteV ||| pteU ||| pteRWX)
      (fun _ va => some (Phys.imageSource flatImage imageSize va)) userBase ((imageSize + 4095) / 4096) =
        .ok s₃ ∧ s₂.slack L root ≤ s₃.slack L root +
          loopCount (fun va => some (Phys.imageSource flatImage imageSize va)) userBase
            ((imageSize + 4095) / 4096) :=
    he.mapLoop_slack (by decide) (by decide) (by decide) (by decide) hlow3 (fun _ _ _ _ _ => rfl) hn3 (by omega)
  obtain ⟨F₃, he3, _⟩ := he.mapLoop (by decide) (by decide) (by decide)
    (f := fun va => some (Phys.imageSource flatImage imageSize va)) (fun _ _ _ _ _ => rfl)
    (fun _ _ _ i hi a n ha => ⟨hn3 i hi a n ha, fun _ _ => trivial⟩) h3
  -- the stack
  have hn4 : ∀ i < (if bottom ≤ top then (top - bottom) / 4096 + 1 else 0), ∀ a n,
      some (0, 0) = some (a, n) → n ≤ 4096 := by
    intro i _ a n ha
    simp only [Option.some.injEq, Prod.mk.injEq] at ha
    omega
  have hlow4 : ∀ i < (if bottom ≤ top then (top - bottom) / 4096 + 1 else 0), LowVa (bottom + 4096 * i) := by
    intro i hi
    unfold LowVa
    split at hi <;> omega
  have hk4 : (if bottom ≤ top then (top - bottom) / 4096 + 1 else 0) ≤ (top - bottom) / 4096 + 1 := by
    split <;> omega
  have hc4 := loopCount_le_rounds (fun _ => some (0, 0)) bottom
    (if bottom ≤ top then (top - bottom) / 4096 + 1 else 0)
  obtain ⟨s₄, h4, hr4⟩ : ∃ s₄, s₃.mapLoop L o root (pteV ||| pteR ||| pteW ||| pteU) (fun _ _ => some (0, 0))
      bottom (if bottom ≤ top then (top - bottom) / 4096 + 1 else 0) = .ok s₄ ∧ s₃.slack L root ≤
        s₄.slack L root + loopCount (fun _ => some (0, 0)) bottom
          (if bottom ≤ top then (top - bottom) / 4096 + 1 else 0) :=
    he3.mapLoop_slack (by decide) (by decide) (by decide) hbot hlow4 (fun _ _ _ _ _ => rfl) hn4 (by omega)
  obtain ⟨F₄, he4, _⟩ := he3.mapLoop (by decide) (by decide) (by decide) (f := fun _ => some (0, 0))
    (fun _ _ _ _ _ => rfl) (fun _ _ _ i hi a n ha => ⟨hn4 i hi a n ha, fun _ _ => trivial⟩) h4
  -- the heap
  have hroom4 := Phys.slack_le_room L s₄ root
  obtain ⟨heapPage, s₅, h5, hr5⟩ := he4.grows.ok.allocPages_room (o := o) (by omega)
  obtain ⟨F₅, hb5⟩ := allocPages_one he4.grows.ok he4.grows.track h5
  obtain ⟨s₆, h6, hr6⟩ := mapFresh_slack (m := s₅.mem) he4.grows.ok he4.space.tables hb5 hr5 (fun _ _ => rfl)
    hheap (.inl hheap') (by decide : pteV ||| pteU ||| pteR ||| pteW < 1024) (by omega)
  refine ⟨root, { s₆ with mem := memset s₆.mem heapPage 0 4096 }, ?_, ?_⟩
  · simp only [Phys.buildSpace, bind_eq_ok, Prod.exists]
    exact ⟨_, _, h1, _, h2, _, h3, _, h4, _, _, h5, _, h6, rfl⟩
  · have hroom6 := Phys.slack_le_room L s₆ root
    show s.room L ≤ s₆.room L + _ + _ + _
    omega

end RiscvOs
