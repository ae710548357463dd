import RiscvOs.Lemmas.Free

/-!
# Page tables as finite maps

The tables of an address space form a radix tree of table pages. While no two paths lead to the same
table, the tree is a map from the three indices of a page number to leaf entries, `map_page` and
`unmap_page` update this map at one page number, and the walkers read it.
-/

namespace RiscvOs

open ByteMem Outcome Radix

/-- The indices of a page number at the levels 2, 1 and 0. -/
abbrev Vpn := Fin 512 × Fin 512 × Fin 512

def vpn (va : Nat) : Vpn := (px 2 va, px 1 va, px 0 va)

/-- The table at a path of at most two indices. -/
def tableAt (m : Mem) (root : Nat) : List (Fin 512) → Option Nat := held (pteAt m) pteNext pteNext 1 root

/-- The leaf entry of a page number, 0 where the table for it is missing. -/
def leafAt (m : Mem) (root : Nat) (v : Vpn) : Nat :=
  match tableAt m root [v.1, v.2.1] with
  | some t => pteAt m t v.2.2
  | none => 0

/-- `pg` is one of the table pages. -/
def IsTable (m : Mem) (root pg : Nat) : Prop := ∃ q, tableAt m root q = some pg

/-- The tables are allocated pages, and no two paths lead to the same one. -/
structure TablesOk (L : Layout) (s : Phys) (F : List Nat) (root : Nat) : Prop where
  distinct : Distinct (pteAt s.mem) pteNext pteNext 1 root
  page : ∀ pg, IsTable s.mem root pg → IsPage L pg ∧ ¬Avail L s F pg

variable {L : Layout} {s s' s'' : Phys} {F F' F'' : List Nat} {o root pt pa va flags pte pg t : Nat}
  {i j k : Fin 512} {p q : List (Fin 512)} {v v' : Vpn} {m m' : Mem}

@[simp] theorem tableAt_nil : tableAt m root [] = some root := rfl

@[simp] theorem tableAt_one : tableAt m root [i] = pteNext (pteAt m root i) := by
  simp only [tableAt, held_cons, held_nil]
  cases pteNext (pteAt m root i) with
  | none => rfl
  | some x => rfl

theorem tableAt_two :
    tableAt m root [i, j] = (pteNext (pteAt m root i)).bind fun t => pteNext (pteAt m t j) := rfl

theorem tableAt_snoc (hp : tableAt m root p = some pt) (hl : p.length ≤ 1) :
    tableAt m root (p ++ [i]) = pteNext (pteAt m pt i) := by
  rw [tableAt, held_append hl, ← tableAt, hp, Option.bind_some]
  match p with
  | [] => exact tableAt_one
  | [_] => rfl

theorem isTable_root (m : Mem) (root : Nat) : IsTable m root root := ⟨[], rfl⟩

/-- The tables below an aligned root are aligned. -/
theorem isTable_aligned (hr : root % 4096 = 0) (h : IsTable m root pg) : pg % 4096 = 0 := by
  obtain ⟨q, hq⟩ := h
  exact held_all (P := fun pg => pg % 4096 = 0) hr (fun _ _ => pteNext_aligned) (fun _ _ => pteNext_aligned) hq

theorem leafAt_of_table (h : tableAt m root [v.1, v.2.1] = some t) : leafAt m root v = pteAt m t v.2.2 := by
  simp [leafAt, h]

theorem leafAt_of_none (h : tableAt m root [v.1, v.2.1] = none) : leafAt m root v = 0 := by
  simp [leafAt, h]

/-- The tables of a tree and its leaf entries live in its table pages. -/
theorem tableAt_congr (h : ∀ a, IsTable m root (pageOf a) → m' a = m a)
    (ha : ∀ pg, IsTable m root pg → pg % 4096 = 0) : tableAt m' root = tableAt m root := by
  funext q
  refine held_congr (b := fun _ => False) (fun q y j _ hy _ => pteAt_congr fun x h1 h2 => h x ?_)
    fun _ _ h => h
  have hlt : q.length ≤ 1 := by assumption
  have hy' : tableAt m root q = some y := hy
  rw [(pageOf_eq_iff (ha y ⟨q, hy'⟩)).mpr ⟨h1, h2⟩]
  exact ⟨q, hy'⟩

theorem leafAt_congr (h : ∀ a, IsTable m root (pageOf a) → m' a = m a)
    (ha : ∀ pg, IsTable m root pg → pg % 4096 = 0) : leafAt m' root = leafAt m root := by
  funext v
  simp only [leafAt, tableAt_congr h ha]
  cases ht : tableAt m root [v.1, v.2.1] with
  | none => rfl
  | some t =>
      refine pteAt_congr fun x h1 h2 => h x ?_
      rw [(pageOf_eq_iff (ha t ⟨_, ht⟩)).mpr ⟨h1, h2⟩]
      exact ⟨_, ht⟩

theorem TablesOk.aligned (h : TablesOk L s F root) (hp : IsTable s.mem root pg) : pg % 4096 = 0 :=
  (h.page pg hp).1.aligned

theorem TablesOk.root_aligned (h : TablesOk L s F root) : root % 4096 = 0 := h.aligned (isTable_root _ root)

theorem TablesOk.unique (h : TablesOk L s F root) (hp : tableAt s.mem root p = some t)
    (hq : tableAt s.mem root q = some t) : p = q := h.distinct p q t hp hq

/-- The tables of a tree survive a step that writes none of its pages and takes only available ones. -/
theorem TablesOk.congr (h : TablesOk L s F root) (hm : ∀ a, IsTable s.mem root (pageOf a) → s'.mem a = s.mem a)
    (hav : ∀ pg, IsTable s.mem root pg → ¬Avail L s' F' pg) : TablesOk L s' F' root := by
  have he : tableAt s'.mem root = tableAt s.mem root := tableAt_congr hm fun pg => h.aligned
  refine ⟨?_, fun pg => ?_⟩
  · have hd := h.distinct
    intro p q x hp hq
    exact hd p q x ((congrFun he p).symm.trans hp) ((congrFun he q).symm.trans hq)
  · rintro ⟨q, hq⟩
    rw [he] at hq
    exact ⟨(h.page pg ⟨q, hq⟩).1, hav pg ⟨q, hq⟩⟩

/-- The indices of an address determine the 27 bits of its page number, and no more. -/
theorem vpn_eq_iff {va va' : Nat} : vpn va = vpn va' ↔ va / 4096 % 2 ^ 27 = va' / 4096 % 2 ^ 27 := by
  simp only [vpn, Prod.mk.injEq, Fin.ext_iff, px_val, Nat.reduceMul, Nat.reduceAdd, Nat.reducePow]
  omega

/-! ## A zeroed root -/

section Zeroed

variable (hp : IsPage L root) (hz : ∀ a, pageOf a = root → m a = 0)
include hp hz

theorem pteAt_of_zero : pteAt m root i = 0 := by
  have h0 : pteAt (memset m root 0 4096) root i = 0 := by
    have := i.isLt
    exact load64_memset_zero (by omega) (by omega)
  rw [← h0]
  refine pteAt_congr fun x h1 h2 => ?_
  rw [memset_inside h1 h2]
  exact hz x ((pageOf_eq_iff hp.aligned).mpr ⟨h1, h2⟩)

/-- A zeroed root has no table below it. -/
theorem tableAt_of_zero (h : tableAt m root q = some pg) : q = [] ∧ pg = root := by
  by_cases hq : q = []
  · subst hq
    exact ⟨rfl, (Option.some.inj h).symm⟩
  · have hnone : tableAt m root q = none :=
      held_none_of_empty (w := []) held_nil (fun j => by rw [pteAt_of_zero hp hz, pteNext_zero])
        (fun j => by rw [pteAt_of_zero hp hz, pteNext_zero]) (by simp) hq
    rw [hnone] at h
    cases h

theorem leafAt_of_zero (v : Vpn) : leafAt m root v = 0 := by
  refine leafAt_of_none ?_
  cases h : tableAt m root [v.1, v.2.1] with
  | none => rfl
  | some t => simpa using (tableAt_of_zero hp hz h).1

end Zeroed

theorem TablesOk.of_zero (hp : IsPage L root) (hna : ¬Avail L s F root)
    (hz : ∀ a, pageOf a = root → s.mem a = 0) : TablesOk L s F root := by
  refine ⟨fun p q x hq hq' => ?_, fun pg ⟨q, hq⟩ => ?_⟩
  · rw [(tableAt_of_zero hp hz hq).1, (tableAt_of_zero hp hz hq').1]
  · exact (tableAt_of_zero hp hz hq).2 ▸ ⟨hp, hna⟩

theorem AllocBlock.zero (h : AllocBlock L o s F pa 1 s' F') (hp : IsPage L pa) (a : Nat)
    (ha : pageOf a = pa) : s'.mem a = 0 := by
  rw [pageOf_eq_iff hp.aligned] at ha
  rw [h.mem, memset_inside (by omega) (by omega)]

/-! ## One level of `map_page` -/

/-- Below the entry `i` of the table at `p` hangs the table `t`, a new empty one if there was none. -/
structure NextTable (L : Layout) (o : Nat) (s : Phys) (F : List Nat) (root : Nat)
    (p : List (Fin 512)) (pt t : Nat) (s' : Phys) (F' : List Nat) : Prop where
  grows : Grows L o s F s' F' (· = pt)
  tables : TablesOk L s' F' root
  at_path : tableAt s'.mem root p = some t
  other : ∀ q, q ≠ p → tableAt s'.mem root q = tableAt s.mem root q
  was : tableAt s.mem root p = some t ∨ tableAt s.mem root p = none ∧ Avail L s F t
  leaf : leafAt s'.mem root = leafAt s.mem root

/-- A zeroed page holds empty entries. -/
theorem pteAt_memset_zero : pteAt (memset m pa 0 4096) pa i = 0 := by
  have := i.isLt
  exact load64_memset_zero (by omega) (by omega)

/-- Hanging a new empty table below a free entry. -/
theorem NextTable.of_new (hs : AllocOk L s F) (h : TablesOk L s F root)
    (hp : tableAt s.mem root p = some pt) (hl : p.length ≤ 1)
    (hnone : tableAt s.mem root (p ++ [i]) = none) (hb : AllocBlock L o s F pa 1 s' F')
    (hm : m' = setPte (memset s'.mem pa 0 4096) pt i (pa2pte pa pteV)) :
    NextTable L o s F root (p ++ [i]) pt pa
      { s' with mem := m' } F' := by
  have hpt := h.page pt ⟨p, hp⟩
  have hav := hb.was_one
  have hpa : IsPage L pa := hs.isPage hav
  have hnt : ∀ q, tableAt s.mem root q ≠ some pa := fun q hq => (h.page pa ⟨q, hq⟩).2 hav
  have hne : pa ≠ pt := fun he => hnt p (he ▸ hp)
  have hlt := hpa.lt_64
  -- the entries that change are those of the new table and the one that leads to it
  have hent : ∀ y j, y % 4096 = 0 → y ≠ pa → (y = pt → j ≠ i) →
      pteAt m' y j = pteAt s.mem y j := by
    intro y j hy hya hyi
    have := hpa.aligned
    rw [hm, pteAt_setPte_other hpt.1.aligned hy hyi]
    refine pteAt_congr fun x h1 h2 => ?_
    rw [memset_outside (by omega), hb.mem, memset_outside (by omega)]
  have hnew : pteAt m' pt i = pa2pte pa pteV := by
    rw [hm, pteAt_setPte_self (pa2pte_lt (by omega) (by decide))]
  have hzero : ∀ j, pteAt m' pa j = 0 := by
    intro j
    rw [hm, pteAt_setPte_other hpt.1.aligned hpa.aligned fun he => absurd he hne, pteAt_memset_zero]
  have hout : ∀ q, ¬p ++ [i] <+: q → tableAt m' root q
      = tableAt s.mem root q := fun q hq =>
    held_write (fun q' y j _ hy hj => hent y j (h.aligned ⟨q', hy⟩) (fun he => hnt q' (he ▸ hy))
      fun he => hj (h.unique hy (he ▸ hp))) hq
  have hpath : tableAt m' root (p ++ [i])
      = some pa := by
    have hp' : ¬p ++ [i] <+: p := fun hpre => by
      have := hpre.length_le
      simp only [List.length_append, List.length_cons, List.length_nil] at this
      omega
    rw [tableAt_snoc ((hout p hp').trans hp) hl, hnew, pteNext, pteHas_pa2pte (by decide) (by decide),
      pte2pa_pa2pte hpa.aligned (by omega) (by decide)]
    rfl
  have hbelow : ∀ q, p ++ [i] <+: q → q ≠ p ++ [i] →
      tableAt m' root q = none := fun q hq hqe =>
    held_none_of_empty hpath (by simp [hzero]) (by simp [hzero]) hq hqe
  have hother : ∀ q, q ≠ p ++ [i] → tableAt m' root q
      = tableAt s.mem root q := by
    intro q hq
    by_cases hpre : p ++ [i] <+: q
    · rw [hbelow q hpre hq]
      exact (held_none_of_shorter hnone hpre).symm
    · exact hout q hpre
  have hW : ∀ pg, pg = pt ∨ pg = pa → ¬Avail L s' F' pg := by
    rintro pg (rfl | rfl) hpg
    · exact hpt.2 (hb.grows.avail _ hpg)
    · exact hb.not_avail hpg
  have hwrite : Grows L o s' F'
      { s' with mem := m' } F' fun pg => pg = pt ∨ pg = pa := by
    refine .write hb.grows.ok hb.grows.track (fun a ha => ?_) hW
    rw [not_or, pageOf_eq_iff hpt.1.aligned, pageOf_eq_iff hpa.aligned] at ha
    have := i.isLt
    show m' a = s'.mem a
    rw [hm, setPte, store64_outside (by omega), memset_outside (by omega)]
  have hleaf : ∀ v, leafAt m' root v = leafAt s.mem root v := by
    intro v
    by_cases hv : [v.1, v.2.1] = p ++ [i]
    · rw [← hv] at hnone hpath
      rw [leafAt_of_none hnone, leafAt_of_table hpath, hzero]
    · cases ht : tableAt s.mem root [v.1, v.2.1] with
      | none => rw [leafAt_of_none ht, leafAt_of_none ((hother _ hv).trans ht)]
      | some t =>
          rw [leafAt_of_table ht, leafAt_of_table ((hother _ hv).trans ht)]
          refine hent t _ (h.aligned ⟨_, ht⟩) (fun he => hnt _ (he ▸ ht)) fun he => ?_
          have := h.unique (he ▸ ht) hp
          rw [← this] at hl
          simp at hl
  have hgrows : Grows L o s F s' F' (· = pt) := hb.grows.mono fun _ h => h.elim
  refine ⟨hgrows.trans hwrite fun pg hpg => ?_, ⟨?_, ?_⟩, hpath, hother, .inr ⟨hnone, hav⟩,
    funext hleaf⟩
  · rcases hpg with rfl | rfl
    · exact .inl rfl
    · exact .inr hav
  · refine h.distinct.replace hout hbelow fun x hx q hq => ?_
    obtain rfl : pa = x := Option.some.inj (hpath.symm.trans hx)
    exact absurd hq (hnt q)
  · rintro pg ⟨q, hq⟩
    by_cases hqe : q = p ++ [i]
    · obtain rfl : pa = pg := Option.some.inj (hpath.symm.trans (hqe ▸ hq))
      exact ⟨hpa, hb.not_avail⟩
    · have hold := h.page pg ⟨q, (hother q hqe).symm.trans hq⟩
      exact ⟨hold.1, fun hpg => hold.2 (hb.grows.avail pg hpg)⟩

theorem nextTable_spec (hs : AllocOk L s F) (ht : TrackOk L s F) (h : TablesOk L s F root)
    (hp : tableAt s.mem root p = some pt) (hl : p.length ≤ 1)
    (hok : s.nextTable L o pt i = .ok (t, s')) :
    ∃ F', NextTable L o s F root (p ++ [i]) pt t s' F' := by
  have hpath := tableAt_snoc (i := i) hp hl
  unfold Phys.nextTable at hok
  by_cases hv : pteHas (pteAt s.mem pt i) pteV
  · simp only [hv, ↓reduceIte, Except.ok.injEq, Prod.mk.injEq] at hok
    obtain ⟨rfl, rfl⟩ := hok
    simp only [pteNext, hv, ↓reduceIte] at hpath
    exact ⟨F, .refl hs ht, h, hpath, fun _ _ => rfl, .inl hpath, rfl⟩
  · simp only [hv, Bool.false_eq_true, ↓reduceIte, bind_eq_ok, Prod.exists] at hok
    obtain ⟨pa, s₁, ha, hok⟩ := hok
    obtain ⟨F', hb⟩ := allocPages_one hs ht ha
    simp only [pteNext, hv, Bool.false_eq_true, ↓reduceIte] at hpath
    have hn := NextTable.of_new (i := i) hs h hp hl hpath hb rfl
    simp only [Except.ok.injEq, Prod.mk.injEq] at hok
    obtain ⟨rfl, rfl⟩ := hok
    -- the table that the new entry leads to is the page just allocated
    have hlt := (hs.isPage hb.was_one).lt_64
    rw [pteAt_setPte_self (pa2pte_lt (by omega) (by decide)),
      pte2pa_pa2pte (hs.isPage hb.was_one).aligned (by omega) (by decide)]
    exact ⟨F', hn⟩

/-! ## Writing a leaf entry -/

/-- The page table becomes the map `f` on page numbers; tables are only added. -/
structure Remap (L : Layout) (o : Nat) (s : Phys) (F : List Nat) (root : Nat) (s' : Phys)
    (F' : List Nat) (f : Vpn → Nat) : Prop where
  grows : Grows L o s F s' F' (IsTable s.mem root)
  tables : TablesOk L s' F' root
  kept : ∀ q x, tableAt s.mem root q = some x → tableAt s'.mem root q = some x
  new : ∀ q x, tableAt s'.mem root q = some x → tableAt s.mem root q = some x ∨ Avail L s F x
  leaf : leafAt s'.mem root = f

theorem Remap.refl (hs : AllocOk L s F) (ht : TrackOk L s F) (h : TablesOk L s F root) :
    Remap L o s F root s F (leafAt s.mem root) :=
  ⟨.refl hs ht, h, fun _ _ h => h, fun _ _ h => .inl h, rfl⟩

theorem Remap.trans {f f' : Vpn → Nat} (h : Remap L o s F root s' F' f)
    (h' : Remap L o s' F' root s'' F'' f') : Remap L o s F root s'' F'' f' where
  grows := h.grows.trans h'.grows fun pg ⟨q, hq⟩ => (h.new q pg hq).imp_left fun hq => ⟨q, hq⟩
  tables := h'.tables
  kept q x hq := h'.kept q x (h.kept q x hq)
  new q x hq := by
    rcases h'.new q x hq with hq | hx
    · exact h.new q x hq
    · exact .inr (h.grows.avail x hx)
  leaf := h'.leaf

theorem NextTable.remap (hp : tableAt s.mem root q = some pt)
    (h : NextTable L o s F root p pt t s' F') :
    Remap L o s F root s' F' (leafAt s.mem root) := by
  refine ⟨h.grows.mono fun pg he => he ▸ ⟨q, hp⟩, h.tables, fun q' x hq' => ?_, fun q' x hq' => ?_, h.leaf⟩
  · by_cases hqp : q' = p
    · rcases h.was with hw | ⟨hw, _⟩
      · rw [hqp, h.at_path, ← hw, ← hqp, hq']
      · rw [hqp, hw] at hq'
        cases hq'
    · rw [h.other q' hqp, hq']
  · by_cases hqp : q' = p
    · rw [hqp, h.at_path, Option.some.injEq] at hq'
      rcases h.was with hw | ⟨_, hw⟩
      · exact .inl (by rw [hqp, hw, hq'])
      · exact .inr (hq' ▸ hw)
    · exact .inl (h.other q' hqp ▸ hq')

/-- The memory `m'` has the tables of `m`, and its map differs at one page number. -/
structure SetLeaf (m : Mem) (root : Nat) (v : Vpn) (pte : Nat) (m' : Mem) : Prop where
  tables : tableAt m' root = tableAt m root
  leaf : leafAt m' root = Function.update (leafAt m root) v pte
  outside : ∀ a, ¬IsTable m root (pageOf a) → m' a = m a

/-- A store to a leaf entry changes the map at its page number and nothing else. -/
theorem SetLeaf.of_setPte (hd : Distinct (pteAt m) pteNext pteNext 1 root) (hr : root % 4096 = 0)
    (hp : tableAt m root [v.1, v.2.1] = some t) (hlt : pte < 2 ^ 64) :
    SetLeaf m root v pte (setPte m t v.2.2 pte) := by
  have hal : t % 4096 = 0 := isTable_aligned hr ⟨_, hp⟩
  have hent : ∀ q y j, tableAt m root q = some y → (q = [v.1, v.2.1] → j ≠ v.2.2) →
      pteAt (setPte m t v.2.2 pte) y j = pteAt m y j := fun q y j hy hj =>
    pteAt_setPte_other hal (isTable_aligned hr ⟨q, hy⟩) fun he => hj (hd _ _ y hy (he ▸ hp))
  have htab : tableAt (setPte m t v.2.2 pte) root = tableAt m root := by
    funext q
    refine held_congr (b := fun _ => False) (fun q' y j hl hy _ => hent q' y j hy fun he => ?_)
      fun _ _ h => h
    rw [he] at hl
    simp at hl
  refine ⟨htab, ?_, fun a ha => ?_⟩
  · funext v'
    by_cases hv : v' = v
    · subst hv
      rw [Function.update_self, leafAt_of_table ((congrFun htab _).trans hp), pteAt_setPte_self hlt]
    · rw [Function.update_of_ne hv]
      cases hq : tableAt m root [v'.1, v'.2.1] with
      | none => rw [leafAt_of_none hq, leafAt_of_none ((congrFun htab _).trans hq)]
      | some y =>
          rw [leafAt_of_table hq, leafAt_of_table ((congrFun htab _).trans hq)]
          refine hent _ y _ hq fun he hj => hv ?_
          simp only [List.cons.injEq, and_true] at he
          exact Prod.ext he.1 (Prod.ext he.2 hj)
  · have hne : pageOf a ≠ t := fun he => ha (he ▸ ⟨_, hp⟩)
    rw [ne_eq, pageOf_eq_iff hal] at hne
    have := v.2.2.isLt
    exact store64_outside (by omega)

theorem SetLeaf.refl (h : leafAt m root v = pte) : SetLeaf m root v pte m :=
  ⟨rfl, by rw [← h, Function.update_eq_self], fun _ _ => rfl⟩

theorem SetLeaf.remap (hs : AllocOk L s F) (ht : TrackOk L s F) (h : TablesOk L s F root)
    (hm : SetLeaf s.mem root v pte m) :
    Remap L o s F root { s with mem := m } F (Function.update (leafAt s.mem root) v pte) := by
  refine ⟨.write hs ht hm.outside fun pg hpg => (h.page pg hpg).2, ⟨fun p q x hp hq => ?_, ?_⟩,
    fun q x hq => (congrFun hm.tables q).trans hq, fun q x hq => .inl ((congrFun hm.tables q).symm.trans hq),
    hm.leaf⟩
  · exact h.distinct p q x ((congrFun hm.tables p).symm.trans hp) ((congrFun hm.tables q).symm.trans hq)
  · rintro pg ⟨q, hq⟩
    exact h.page pg ⟨q, (congrFun hm.tables q).symm.trans hq⟩

/-- `map_page` updates the map at one page number. -/
theorem mapPage_spec (hs : AllocOk L s F) (ht : TrackOk L s F) (h : TablesOk L s F root)
    (hlt : pa < 2 ^ 56) (hf : flags < 1024) (hok : s.mapPage L o root va pa flags = .ok s') :
    va % 4096 = 0 ∧ pa % 4096 = 0 ∧ ∃ F', Remap L o s F root s' F'
      (Function.update (leafAt s.mem root) (vpn va) (pa2pte pa (flags ||| pteV))) := by
  simp only [Phys.mapPage, ite_error_eq_ok, not_not, bind_eq_ok, Prod.exists, Except.ok.injEq] at hok
  obtain ⟨hva, hpa, l1, s₁, h1, l0, s₂, h2, rfl⟩ := hok
  obtain ⟨F₁, hn1⟩ := nextTable_spec hs ht h tableAt_nil (by simp) h1
  obtain ⟨F₂, hn2⟩ := nextTable_spec hn1.grows.ok hn1.grows.track hn1.tables hn1.at_path (by simp) h2
  have hr := (hn1.remap tableAt_nil).trans (hn2.remap hn1.at_path)
  have hset := SetLeaf.of_setPte (v := vpn va) hr.tables.distinct hr.tables.root_aligned hn2.at_path
    (show pa2pte pa flags ||| pteV < 2 ^ 64 by rw [pa2pte_or]; exact pa2pte_lt hlt (or_pteV_lt hf))
  have hw := hset.remap (o := o) hr.grows.ok hr.grows.track hr.tables
  rw [hr.leaf, hn1.leaf, pa2pte_or] at hw
  rw [pa2pte_or]
  exact ⟨hva, hpa, F₂, hr.trans hw⟩

/-- `unmap_page` empties the entry of one page number, and adds no table. -/
theorem unmapPage_mem (hd : Distinct (pteAt s.mem) pteNext pteNext 1 root) (hr : root % 4096 = 0)
    (hok : s.unmapPage root va = .ok s') :
    va % 4096 = 0 ∧ ∃ m, s' = { s with mem := m } ∧ SetLeaf s.mem root (vpn va) 0 m := by
  simp only [Phys.unmapPage, ite_error_eq_ok, not_not] at hok
  obtain ⟨hva, hok⟩ := hok
  refine ⟨hva, ?_⟩
  by_cases h2 : pteHas (pteAt s.mem root (px 2 va)) pteV
  · by_cases h1 : pteHas (pteAt s.mem (pte2pa (pteAt s.mem root (px 2 va))) (px 1 va)) pteV
    · simp only [h2, Bool.not_true, Bool.false_eq_true, ↓reduceIte, h1, Except.ok.injEq] at hok
      subst hok
      have hp : tableAt s.mem root [(vpn va).1, (vpn va).2.1] =
          some (pte2pa (pteAt s.mem (pte2pa (pteAt s.mem root (px 2 va))) (px 1 va))) := by
        simp [tableAt_two, pteNext, vpn, h2, h1]
      exact ⟨_, rfl, .of_setPte hd hr hp (by decide)⟩
    · simp only [h2, Bool.not_true, Bool.false_eq_true, ↓reduceIte, h1, Bool.not_false,
        Except.ok.injEq] at hok
      subst hok
      exact ⟨_, rfl, .refl (leafAt_of_none (by simp [tableAt_two, pteNext, vpn, h2, h1]))⟩
  · simp only [h2, Bool.not_false, ↓reduceIte, Except.ok.injEq] at hok
    subst hok
    exact ⟨_, rfl, .refl (leafAt_of_none (by simp [tableAt_two, pteNext, vpn, h2]))⟩

theorem unmapPage_spec (hs : AllocOk L s F) (ht : TrackOk L s F) (h : TablesOk L s F root)
    (hok : s.unmapPage root va = .ok s') :
    va % 4096 = 0 ∧ Remap L o s F root s' F (Function.update (leafAt s.mem root) (vpn va) 0) := by
  obtain ⟨hva, m, rfl, hm⟩ := unmapPage_mem h.distinct h.root_aligned hok
  exact ⟨hva, hm.remap hs ht h⟩

/-! ## Room -/

theorem nextTable_room (o pt : Nat) (i : Fin 512) (hs : AllocOk L s F) (h : 1 ≤ s.room L) :
    ∃ t s', s.nextTable L o pt i = .ok (t, s') ∧ s.room L ≤ s'.room L + 1 := by
  unfold Phys.nextTable
  by_cases hv : pteHas (pteAt s.mem pt i) pteV
  · simp only [hv, ↓reduceIte]
    exact ⟨_, _, rfl, by omega⟩
  · obtain ⟨pa, s₁, ha, hr⟩ := hs.allocPages_room (o := o) h
    simp only [hv, Bool.false_eq_true, ↓reduceIte, ha, ok_bind]
    refine ⟨_, _, rfl, ?_⟩
    simp only [Phys.room] at hr ⊢
    omega

/-- `map_page` succeeds while there is room for two tables. -/
theorem mapPage_room (hs : AllocOk L s F) (ht : TrackOk L s F) (h : TablesOk L s F root)
    (hva : va % 4096 = 0) (hpa : pa % 4096 = 0) (hr : 2 ≤ s.room L) :
    ∃ s', s.mapPage L o root va pa flags = .ok s' ∧ s.room L ≤ s'.room L + 2 := by
  obtain ⟨l1, s₁, h1, hr1⟩ := nextTable_room o root (px 2 va) hs (by omega)
  obtain ⟨F₁, hn1⟩ := nextTable_spec hs ht h tableAt_nil (by simp) h1
  obtain ⟨l0, s₂, h2, hr2⟩ := nextTable_room o l1 (px 1 va) hn1.grows.ok (by omega)
  refine ⟨_, by simp only [Phys.mapPage, hva, hpa, ne_eq, not_true_eq_false, ↓reduceIte, h1, h2, ok_bind]; rfl, ?_⟩
  simp only [Phys.room] at hr1 hr2 ⊢
  omega

theorem unmapPage_total (hva : va % 4096 = 0) : ∃ s', s.unmapPage root va = .ok s' := by
  simp only [Phys.unmapPage, hva, ne_eq, not_true_eq_false, ↓reduceIte]
  split
  · exact ⟨_, rfl⟩
  · split <;> exact ⟨_, rfl⟩

/-! ## Reading the map -/

theorem walkPage_eq : Phys.walkPage m root va = (pteNext (leafAt m root (vpn va))).getD 0 := by
  unfold Phys.walkPage leafAt
  simp only [vpn, tableAt_two]
  by_cases h2 : pteHas (pteAt m root (px 2 va)) pteV
  · by_cases h1 : pteHas (pteAt m (pte2pa (pteAt m root (px 2 va))) (px 1 va)) pteV
    · simp only [h2, h1, pteNext, Bool.not_true, Bool.false_eq_true, ↓reduceIte, Option.bind_some]
      split <;> simp_all
    · simp [h2, h1, pteNext]
  · simp [h2, pteNext]

/-- `walk` without allocation finds the entry, or NULL when a table is missing. -/
theorem walk_of_table (hva : va < 2 ^ 39) (h : tableAt s.mem root [px 2 va, px 1 va] = some t) :
    s.walk L o root va false = .ok (t + 8 * px 0 va, s) := by
  have hva' : ¬va ≥ 2 ^ 39 := by omega
  rw [tableAt_two] at h
  obtain ⟨l1, h1, h2⟩ := Option.bind_eq_some_iff.mp h
  simp only [pteNext, Option.ite_none_right_eq_some, Option.some.injEq] at h1 h2
  obtain ⟨hv1, rfl⟩ := h1
  obtain ⟨hv2, rfl⟩ := h2
  simp only [Phys.walk, hva', ↓reduceIte, Phys.walkLevel, hv1, ok_bind, hv2]

theorem walk_of_none (hva : va < 2 ^ 39) (h : tableAt s.mem root [px 2 va, px 1 va] = none) :
    s.walk L o root va false = .ok (0, s) := by
  have hva' : ¬va ≥ 2 ^ 39 := by omega
  simp only [tableAt_two, pteNext] at h
  simp only [Phys.walk, hva', ↓reduceIte, Phys.walkLevel, Bool.not_false]
  by_cases h2 : pteHas (pteAt s.mem root (px 2 va)) pteV
  · by_cases h1 : pteHas (pteAt s.mem (pte2pa (pteAt s.mem root (px 2 va))) (px 1 va)) pteV
    · simp [h2, h1] at h
    · simp only [h2, ↓reduceIte, ok_bind, h1, Bool.false_eq_true]
  · simp only [h2, Bool.false_eq_true, ↓reduceIte, ok_bind]

end RiscvOs
