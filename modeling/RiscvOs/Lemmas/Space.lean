import RiscvOs.Lemmas.Table

/-!
# Address spaces

An address space holds its table pages and the frames of its user pages. While it holds different pages at
different paths, all of them allocated, the loops that build it keep it so: every page they add was
available before.
-/

namespace RiscvOs

open ByteMem Outcome Radix

/-- What an address space holds at a path: a table, or at a path of three indices a user's frame. -/
def spaceAt (m : Mem) (root : Nat) : List (Fin 512) → Option Nat := held (pteAt m) pteNext userFrame 2 root

/-- `pg` is one of the tables or of the user's frames. -/
def InSpace (m : Mem) (root pg : Nat) : Prop := ∃ q, spaceAt m root q = some pg

structure SpaceOk (L : Layout) (s : Phys) (F : List Nat) (root : Nat) : Prop where
  distinct : Distinct (pteAt s.mem) pteNext userFrame 2 root
  page : ∀ pg, InSpace s.mem root pg → IsPage L pg ∧ ¬Avail L s F pg

/-- The entry of a page that the user may read and write. -/
structure UserLeaf (e pg : Nat) : Prop where
  frame : userFrame e = some pg
  readable : pteHas e pteR
  writable : pteHas e pteW

/-- The entry of a page with code: the user may also execute it. -/
structure CodeLeaf (e : Nat) : Prop where
  user : ∃ pg, UserLeaf e pg
  executable : pteHas e pteX

/-- The entry of a page with data: the user may not execute it. -/
structure DataLeaf (e : Nat) : Prop where
  user : ∃ pg, UserLeaf e pg
  plain : pteHas e pteX = false

/-- The entry has these flags. -/
def Flagged (flags e : Nat) : Prop := ∀ mask < 1024, pteHas e mask = pteHas (flags ||| pteV) mask

/-- From the map `f` to `f'` the page numbers of `S` get entries with these flags, and no others change. -/
structure NewLeaves (flags : Nat) (S : Vpn → Prop) (f f' : Vpn → Nat) : Prop where
  flagged : ∀ v, S v → Flagged flags (f' v)
  same : ∀ v, ¬S v → f' v = f v

variable {L : Layout} {s s' s'' s₀ t : Phys} {F F' F'' F₀ : List Nat} {m m' : Mem}
  {o root pa va flags pg a n x : Nat} {q : List (Fin 512)} {v v' : Vpn} {S S' : Vpn → Prop}
  {C : Vpn → Nat → UInt8 → Prop}

theorem spaceAt_of_short (h : q.length ≤ 2) : spaceAt m root q = tableAt m root q := by
  match q with
  | [] => rfl
  | [i] => simp [spaceAt]
  | [i, j] =>
      simp only [spaceAt, tableAt_two, held_cons]
      cases pteNext (pteAt m root i) with
      | none => rfl
      | some y =>
          simp only [Option.bind_some]
          cases pteNext (pteAt m y j) with
          | none => rfl
          | some z => rfl

theorem spaceAt_leaf : spaceAt m root [v.1, v.2.1, v.2.2] = userFrame (leafAt m root v) := by
  have h : spaceAt m root [v.1, v.2.1, v.2.2] =
      (tableAt m root [v.1, v.2.1]).bind fun t => userFrame (pteAt m t v.2.2) := by
    simp only [spaceAt, tableAt_two, held_cons, held_leaf, Option.bind_assoc]
  rw [h, leafAt]
  cases tableAt m root [v.1, v.2.1] with
  | none => simp
  | some t => rfl

/-- What a space holds is a table or a frame. -/
theorem spaceAt_cases (h : spaceAt m root q = some x) :
    tableAt m root q = some x ∨ ∃ v : Vpn, q = [v.1, v.2.1, v.2.2] ∧ userFrame (leafAt m root v) = some x := by
  match q with
  | [] => exact .inl h
  | [i] => exact .inl (spaceAt_of_short (q := [i]) (by simp) ▸ h)
  | [i, j] => exact .inl (spaceAt_of_short (q := [i, j]) (by simp) ▸ h)
  | [i, j, l] => exact .inr ⟨(i, j, l), rfl, spaceAt_leaf (v := (i, j, l)) ▸ h⟩
  | _ :: _ :: _ :: _ :: _ =>
      have := held_length h
      simp only [List.length_cons] at this
      omega

theorem tableAt_short (h : tableAt m root q = some x) : q.length ≤ 2 := held_length h

theorem spaceAt_of_table (h : tableAt m root q = some x) : spaceAt m root q = some x := by
  rw [spaceAt_of_short (tableAt_short h), h]

theorem inSpace_root : InSpace m root root := ⟨[], rfl⟩

theorem IsTable.inSpace (h : IsTable m root pg) : InSpace m root pg := by
  obtain ⟨q, hq⟩ := h
  exact ⟨q, spaceAt_of_table hq⟩

theorem inSpace_of_frame (h : userFrame (leafAt m root v) = some pg) : InSpace m root pg :=
  ⟨_, spaceAt_leaf.trans h⟩

section Distinct

variable (hd : Distinct (pteAt m) pteNext userFrame 2 root)
include hd

theorem tables_distinct : Distinct (pteAt m) pteNext pteNext 1 root :=
  fun _ _ _ hp hq => hd _ _ _ (spaceAt_of_table hp) (spaceAt_of_table hq)

/-- No frame is a table. -/
theorem frame_not_table (hf : userFrame (leafAt m root v) = some pg) : ¬IsTable m root pg := by
  rintro ⟨q, hq⟩
  have := hd _ _ _ (spaceAt_of_table hq) (spaceAt_leaf.trans hf)
  have hl := tableAt_short hq
  rw [this] at hl
  simp at hl

/-- Different pages of the user have different frames. -/
theorem frame_inj (hv : userFrame (leafAt m root v) = some pg) (hv' : userFrame (leafAt m root v') = some pg) :
    v = v' := by
  have := hd _ _ _ (spaceAt_leaf.trans hv) (spaceAt_leaf.trans hv')
  simp only [List.cons.injEq, and_true] at this
  exact Prod.ext this.1 (Prod.ext this.2.1 this.2.2)

end Distinct

theorem SpaceOk.tables (h : SpaceOk L s F root) : TablesOk L s F root :=
  ⟨tables_distinct h.distinct, fun pg hpg => h.page pg hpg.inSpace⟩

theorem SpaceOk.frame_not_table (h : SpaceOk L s F root) (hf : userFrame (leafAt s.mem root v) = some pg) :
    ¬IsTable s.mem root pg := RiscvOs.frame_not_table h.distinct hf

theorem SpaceOk.frame_inj (h : SpaceOk L s F root) (hv : userFrame (leafAt s.mem root v) = some pg)
    (hv' : userFrame (leafAt s.mem root v') = some pg) : v = v' := RiscvOs.frame_inj h.distinct hv hv'

/-- A space depends only on its tables. -/
theorem spaceAt_congr (h : ∀ a, IsTable m root (pageOf a) → m' a = m a)
    (ha : ∀ pg, IsTable m root pg → pg % 4096 = 0) : spaceAt m' root = spaceAt m root := by
  funext q
  by_cases hq : q.length ≤ 2
  · rw [spaceAt_of_short hq, spaceAt_of_short hq, tableAt_congr h ha]
  · match q with
    | [i, j, l] =>
        have hl := congrFun (leafAt_congr h ha) (i, j, l)
        have hs (m : Mem) : spaceAt m root [i, j, l] = userFrame (leafAt m root (i, j, l)) :=
          spaceAt_leaf (v := (i, j, l))
        rw [hs m', hl, ← hs m]
    | [] | [_] | [_, _] => simp at hq
    | _ :: _ :: _ :: _ :: _ =>
        have hnone : ∀ m : Mem, ∀ q : List (Fin 512), 3 < q.length → spaceAt m root q = none := by
          intro m q hq
          cases h : spaceAt m root q with
          | none => rfl
          | some x =>
              have := held_length h
              omega
        rw [hnone _ _ (by simp), hnone _ _ (by simp)]

/-- A space whose tables keep their contents and whose pages stay allocated. -/
theorem SpaceOk.congr (h : SpaceOk L s F root)
    (hm : ∀ a, IsTable s.mem root (pageOf a) → s'.mem a = s.mem a)
    (hav : ∀ pg, InSpace s.mem root pg → ¬Avail L s' F' pg) : SpaceOk L s' F' root := by
  have he : spaceAt s'.mem root = spaceAt s.mem root := spaceAt_congr hm fun pg => h.tables.aligned
  refine ⟨fun p q x hp hq => ?_, fun pg => ?_⟩
  · exact h.distinct p q x ((congrFun he p).symm.trans hp) ((congrFun he q).symm.trans hq)
  · rintro ⟨q, hq⟩
    rw [he] at hq
    exact ⟨(h.page pg ⟨q, hq⟩).1, hav pg ⟨q, hq⟩⟩

/-- Tables without a user's frame. -/
theorem SpaceOk.of_tables (h : TablesOk L s F root) (hf : ∀ v, userFrame (leafAt s.mem root v) = none) :
    SpaceOk L s F root := by
  have hcase : ∀ q x, spaceAt s.mem root q = some x → tableAt s.mem root q = some x := fun q x hq => by
    rcases spaceAt_cases hq with h | ⟨v, _, hv⟩
    · exact h
    · rw [hf v] at hv
      cases hv
  exact ⟨fun p q x hp hq => h.unique (hcase p x hp) (hcase q x hq),
    fun pg ⟨q, hq⟩ => h.page pg ⟨q, hcase q pg hq⟩⟩

/-! ## The identity map -/

/-- The map after `k` rounds of `map_mmio_range` from `va` and `pa` on. -/
def rangeMap (f : Vpn → Nat) (va pa flags : Nat) : Nat → Vpn → Nat
  | 0 => f
  | k + 1 => rangeMap (Function.update f (vpn va) (pa2pte pa (flags ||| pteV))) (va + 4096) (pa + 4096)
      flags k

theorem mapRange_spec {k : Nat} (hs : AllocOk L s F) (ht : TrackOk L s F) (h : TablesOk L s F root)
    (hlt : pa + k * 4096 ≤ 2 ^ 56) (hf : flags < 1024)
    (hok : s.mapRange L o root va pa flags k = .ok s') :
    ∃ F', Remap L o s F root s' F' (rangeMap (leafAt s.mem root) va pa flags k) := by
  induction k generalizing s F va pa with
  | zero =>
      simp only [Phys.mapRange, Except.ok.injEq] at hok
      subst hok
      exact ⟨F, .refl hs ht h⟩
  | succ k ih =>
      simp only [Phys.mapRange, bind_eq_ok] at hok
      obtain ⟨s₁, h1, hok⟩ := hok
      obtain ⟨_, _, F₁, hr⟩ := mapPage_spec hs ht h (by omega) hf h1
      obtain ⟨F₂, hr'⟩ := ih hr.grows.ok hr.grows.track hr.tables (by omega) hok
      rw [hr.leaf] at hr'
      exact ⟨F₂, hr.trans hr'⟩

theorem rangeMap_outside {k : Nat} {f : Vpn → Nat} (h : ∀ i < k, v ≠ vpn (va + 4096 * i)) :
    rangeMap f va pa flags k v = f v := by
  induction k generalizing f va pa with
  | zero => rfl
  | succ k ih =>
      have h0 : v ≠ vpn va := h 0 (by omega)
      rw [rangeMap, ih, Function.update_of_ne h0]
      intro i hi
      have := h (i + 1) (by omega)
      rwa [show va + 4096 * (i + 1) = va + 4096 + 4096 * i by omega] at this

theorem rangeMap_inside {k i : Nat} {f : Vpn → Nat} (hi : i < k) (hva : va / 4096 + k ≤ 2 ^ 27) :
    rangeMap f va pa flags k (vpn (va + 4096 * i)) = pa2pte (pa + 4096 * i) (flags ||| pteV) := by
  induction k generalizing f va pa i with
  | zero => omega
  | succ k ih =>
      rw [rangeMap]
      cases i with
      | zero =>
          rw [rangeMap_outside, Nat.mul_zero, Nat.add_zero, Nat.add_zero, Function.update_self]
          intro j hj he
          rw [vpn_eq_iff] at he
          omega
      | succ i =>
          have : rangeMap (Function.update f (vpn va) (pa2pte pa (flags ||| pteV))) (va + 4096) (pa + 4096)
              flags k (vpn (va + 4096 + 4096 * i)) = pa2pte (pa + 4096 + 4096 * i) (flags ||| pteV) :=
            ih (by omega) (by omega)
          rwa [show va + 4096 * (i + 1) = va + 4096 + 4096 * i by omega,
            show pa + 4096 * (i + 1) = pa + 4096 + 4096 * i by omega]

/-! ## Fresh pages -/

/-- From `s` to `s'` the page numbers of `S` get user pages with frames that were available; `C` says what
their bytes are. -/
structure Extend (L : Layout) (o : Nat) (s : Phys) (F : List Nat) (root : Nat) (s' : Phys)
    (F' : List Nat) (S : Vpn → Prop) (C : Vpn → Nat → UInt8 → Prop) : Prop where
  grows : Grows L o s F s' F' (IsTable s.mem root)
  space : SpaceOk L s' F' root
  kept : ∀ q x, tableAt s.mem root q = some x → tableAt s'.mem root q = some x
  new : ∀ q x, tableAt s'.mem root q = some x → tableAt s.mem root q = some x ∨ Avail L s F x
  same : ∀ v, ¬S v → leafAt s'.mem root v = leafAt s.mem root v
  leaf : ∀ v, S v → ∃ pg, UserLeaf (leafAt s'.mem root v) pg ∧ Avail L s F pg
  fill : ∀ v pg x, S v → userFrame (leafAt s'.mem root v) = some pg → x < 4096 → C v x (s'.mem (pg + x))

theorem Extend.refl (hs : AllocOk L s F) (ht : TrackOk L s F) (h : SpaceOk L s F root) :
    Extend L o s F root s F (fun _ => False) C :=
  ⟨.refl hs ht, h, fun _ _ h => h, fun _ _ h => .inl h, fun _ _ => rfl, fun _ h => h.elim,
    fun _ _ _ h => h.elim⟩

theorem Extend.pages (h : Extend L o s F root s' F' S C) (hS : ∀ v, S v ↔ S' v) :
    Extend L o s F root s' F' S' C := by
  obtain rfl : S = S' := funext fun v => propext (hS v)
  exact h

theorem userFrame_pa2pte (hpa : pa % 4096 = 0) (hlt : pa < 2 ^ 56) (hf : flags < 1024)
    (hu : pteHas flags pteU) : userFrame (pa2pte pa (flags ||| pteV)) = some pa := by
  have hf' := or_pteV_lt hf
  rw [userFrame, pteHas_pa2pte hf' (by decide), pteHas_pa2pte hf' (by decide), pteHas_or_pteV,
    pteHas_or_pteV_of_even _ (by decide), hu, pte2pa_pa2pte hpa hlt hf']
  rfl

theorem UserLeaf.rwx {e : Nat} (h : UserLeaf e pg) : pteHas e pteRWX := by
  have hr := h.readable
  have he : e &&& pteR = e &&& pteRWX &&& pteR := by rw [Nat.and_assoc]; rfl
  simp only [pteHas, bne_iff_ne, ne_eq] at hr ⊢
  intro h0
  rw [he, h0, Nat.zero_and] at hr
  exact hr rfl

theorem flagged_pa2pte (hf : flags < 1024) : Flagged flags (pa2pte pa (flags ||| pteV)) :=
  fun _ hm => pteHas_pa2pte (or_pteV_lt hf) hm

theorem Flagged.user {e : Nat} (h : Flagged flags e) {mask : Nat} (hm : mask < 1024) (heven : mask &&& 1 = 0) :
    pteHas e mask = pteHas flags mask := by rw [h mask hm, pteHas_or_pteV_of_even _ heven]

theorem userLeaf_pa2pte (hpa : pa % 4096 = 0) (hlt : pa < 2 ^ 56) (hf : flags < 1024)
    (hu : pteHas flags pteU) (hr : pteHas flags pteR ∧ pteHas flags pteW) :
    UserLeaf (pa2pte pa (flags ||| pteV)) pa := by
  have he : Flagged flags (pa2pte pa (flags ||| pteV)) := flagged_pa2pte hf
  refine ⟨userFrame_pa2pte hpa hlt hf hu, ?_, ?_⟩
  · rw [he.user (by decide) (by decide)]
    exact hr.1
  · rw [he.user (by decide) (by decide)]
    exact hr.2

theorem NewLeaves.refl {f : Vpn → Nat} : NewLeaves flags (fun _ => False) f f :=
  ⟨fun _ h => h.elim, fun _ _ => rfl⟩

theorem NewLeaves.pages {f f' : Vpn → Nat} (h : NewLeaves flags S f f') (hS : ∀ v, S v ↔ S' v) :
    NewLeaves flags S' f f' := by
  obtain rfl : S = S' := funext fun v => propext (hS v)
  exact h

/-- First the entries of `S` change, then those of `S'`. -/
theorem NewLeaves.trans {f f' f'' : Vpn → Nat} (h : NewLeaves flags S f f') (h' : NewLeaves flags S' f' f'') :
    NewLeaves flags (fun v => S v ∨ S' v) f f'' := by
  refine ⟨fun v hv => ?_, fun v hv => ?_⟩
  · by_cases hv' : S' v
    · exact h'.flagged v hv'
    · rw [h'.same v hv']
      exact h.flagged v (hv.resolve_right hv')
  · rw [not_or] at hv
    rw [h'.same v hv.2, h.same v hv.1]

theorem IsPage.congr_mem (h : IsPage L pg) (hm : ∀ a, pageOf a = pg → m' a = m a) (hx : x < 4096) :
    m' (pg + x) = m (pg + x) :=
  hm _ ((pageOf_eq_iff h.aligned).mpr ⟨by omega, by omega⟩)

/-- An available page, filled and mapped. -/
theorem Extend.mapPage (h : Extend L o s₀ F₀ root s F S C) (hf : flags < 1024)
    (hu : pteHas flags pteU) (hr : pteHas flags pteR ∧ pteHas flags pteW)
    (hg : Grows L o s F t F' fun _ => False) (hav : Avail L s F pa) (hna : ¬Avail L t F' pa)
    (hC : ∀ x < 4096, C (vpn va) x (t.mem (pa + x)))
    (hok : t.mapPage L o root va pa flags = .ok s') :
    ∃ F'', Extend L o s₀ F₀ root s' F'' (fun v => S v ∨ v = vpn va) C ∧
      userFrame (leafAt s'.mem root (vpn va)) = some pa ∧
      NewLeaves flags (· = vpn va) (leafAt s.mem root) (leafAt s'.mem root) := by
  have hpa := h.grows.ok.isPage hav
  have hlt := hpa.lt_64
  have hnot : ∀ q, spaceAt s.mem root q ≠ some pa := fun q hq => (h.space.page pa ⟨q, hq⟩).2 hav
  have hmem : ∀ y, IsTable s.mem root (pageOf y) → t.mem y = s.mem y :=
    fun y hy => hg.mem y (h.space.page _ hy.inSpace).2 id
  have htab : tableAt t.mem root = tableAt s.mem root :=
    tableAt_congr hmem fun pg => h.space.tables.aligned
  have hleaft : leafAt t.mem root = leafAt s.mem root :=
    leafAt_congr hmem fun pg => h.space.tables.aligned
  have hspt : SpaceOk L t F' root :=
    h.space.congr hmem fun pg hpg hpg' => (h.space.page pg hpg).2 (hg.avail pg hpg')
  obtain ⟨_, _, F'', hm⟩ := mapPage_spec hg.ok hg.track hspt.tables (by omega) hf hok
  have hkept : ∀ q x, tableAt s.mem root q = some x → tableAt s'.mem root q = some x :=
    fun q x hq => hm.kept q x ((congrFun htab q).trans hq)
  have hnewt : ∀ q x, tableAt s'.mem root q = some x →
      tableAt s.mem root q = some x ∨ Avail L t F' x := fun q x hq =>
    (hm.new q x hq).imp_left fun hq => (congrFun htab q).symm.trans hq
  have hnotable : ∀ q, tableAt s'.mem root q ≠ some pa := fun q hq => by
    rcases hnewt q pa hq with hq | hq
    · exact hnot q (spaceAt_of_table hq)
    · exact hna hq
  have hold : ∀ v, v ≠ vpn va → leafAt s'.mem root v = leafAt s.mem root v := fun v hv => by
    rw [hm.leaf, hleaft, Function.update_of_ne hv]
  have hnew : UserLeaf (leafAt s'.mem root (vpn va)) pa := by
    rw [hm.leaf, Function.update_self]
    exact userLeaf_pa2pte hpa.aligned (by omega) hf hu hr
  have hgs : Grows L o s F s' F'' (IsTable s.mem root) := by
    have hgt : Grows L o t F' s' F'' (IsTable s.mem root) := hm.grows.mono fun pg ⟨q, hq⟩ =>
      ⟨q, (congrFun htab q).symm.trans hq⟩
    exact (hg.mono fun _ h => h.elim).trans hgt fun pg hpg => .inl hpg
  have hg0 : Grows L o s₀ F₀ s' F'' (IsTable s₀.mem root) :=
    h.grows.trans hgs fun pg ⟨q, hq⟩ => (h.new q pg hq).imp_left fun hq => ⟨q, hq⟩
  -- a page of the new space is a page of the old one, a new table or the page just mapped
  have hcase : ∀ q x, spaceAt s'.mem root q = some x →
      spaceAt s.mem root q = some x ∨
      (tableAt s'.mem root q = some x ∧ Avail L s F x ∧ x ≠ pa) ∨
      q = [(vpn va).1, (vpn va).2.1, (vpn va).2.2] ∧ x = pa := by
    intro q x hq
    rcases spaceAt_cases hq with ht | ⟨v, rfl, hv⟩
    · rcases hnewt q x ht with hq' | hx
      · exact .inl (spaceAt_of_table hq')
      · exact .inr (.inl ⟨ht, hg.avail x hx, fun he => hnotable q (he ▸ ht)⟩)
    · by_cases he : v = vpn va
      · subst he
        rw [hnew.frame, Option.some.injEq] at hv
        exact .inr (.inr ⟨rfl, hv.symm⟩)
      · rw [hold v he] at hv
        exact .inl (spaceAt_leaf.trans hv)
  have hspace : SpaceOk L s' F'' root := by
    refine ⟨fun p q x hp hq => ?_, fun x ⟨q, hq⟩ => ?_⟩
    · rcases hcase p x hp with hp' | ⟨hp', hx, hne⟩ | ⟨hp', hx⟩ <;>
        rcases hcase q x hq with hq' | ⟨hq', hx', hne'⟩ | ⟨hq', hx'⟩
      · exact h.space.distinct p q x hp' hq'
      · exact absurd hx' (h.space.page x ⟨p, hp'⟩).2
      · exact absurd (hx' ▸ hp') (hnot p)
      · exact absurd hx (h.space.page x ⟨q, hq'⟩).2
      · exact hm.tables.unique hp' hq'
      · exact absurd hx' hne
      · exact absurd (hx ▸ hq') (hnot q)
      · exact absurd hx hne'
      · rw [hp', hq']
    · rcases hcase q x hq with hq' | ⟨hq', _, _⟩ | ⟨_, rfl⟩
      · have := h.space.page x ⟨q, hq'⟩
        exact ⟨this.1, fun hx => this.2 (hgs.avail x hx)⟩
      · exact hm.tables.page x ⟨q, hq'⟩
      · exact ⟨hpa, fun hx => hna (hm.grows.avail _ hx)⟩
  refine ⟨F'', ⟨hg0, hspace, fun q x hq => hkept q x (h.kept q x hq), fun q x hq => ?_,
    fun v hv => ?_, fun v hv => ?_, fun v pg x hv hpg hx => ?_⟩, hnew.frame,
    fun v hv => ?_, hold⟩
  · rcases hnewt q x hq with hq | hx
    · exact h.new q x hq
    · exact .inr (h.grows.avail x (hg.avail x hx))
  · rw [not_or] at hv
    rw [hold v hv.2, h.same v hv.1]
  · by_cases he : v = vpn va
    · subst he
      exact ⟨pa, hnew, h.grows.avail pa hav⟩
    · obtain ⟨pg, hl, hp⟩ := h.leaf v (hv.resolve_right he)
      rw [← hold v he] at hl
      exact ⟨pg, hl, hp⟩
  · by_cases he : v = vpn va
    · subst he
      obtain rfl : pa = pg := Option.some.inj (hnew.frame.symm.trans hpg)
      rw [hpa.congr_mem (m := t.mem) (fun y hy => hm.grows.mem y ?_ ?_) hx]
      · exact hC x hx
      · rwa [hy]
      · rintro ⟨q, hq⟩
        rw [hy, htab] at hq
        exact hnot q (spaceAt_of_table hq)
    · rw [hold v he] at hpg
      have hp := h.space.page pg (inSpace_of_frame hpg)
      rw [hp.1.congr_mem (m := s.mem) (fun y hy => hgs.mem y ?_ ?_) hx]
      · exact h.fill v pg x (hv.resolve_right he) hpg hx
      · rw [hy]
        exact hp.2
      · rw [hy]
        exact h.space.frame_not_table hpg
  · rw [hv, hm.leaf, Function.update_self]
    exact flagged_pa2pte hf

/-- One more fresh page with a copy of some bytes. -/
theorem Extend.mapCopy (h : Extend L o s₀ F₀ root s F S C) (hf : flags < 1024)
    (hu : pteHas flags pteU) (hr : pteHas flags pteR ∧ pteHas flags pteW) (hn : n ≤ 4096)
    (hC : ∀ t Ft, Grows L o s₀ F₀ t Ft (IsTable s₀.mem root) →
      ∀ x < 4096, C (vpn va) x (if x < n then t.mem (a + x) else 0))
    (hok : s.mapCopy L o root va flags a n = .ok s') :
    ∃ F', Extend L o s₀ F₀ root s' F' (fun v => S v ∨ v = vpn va) C ∧
      NewLeaves flags (· = vpn va) (leafAt s.mem root) (leafAt s'.mem root) := by
  simp only [Phys.mapCopy, bind_eq_ok, Prod.exists] at hok
  obtain ⟨pa, s₁, ha, hok⟩ := hok
  obtain ⟨F₁, hb⟩ := allocPages_one h.grows.ok h.grows.track ha
  have hpa := h.grows.ok.isPage hb.was_one
  have hw : Grows L o s₁ F₁ { s₁ with mem := memcpy s₁.mem pa a n } F₁ (· = pa) := by
    refine .write hb.grows.ok hb.grows.track (fun y hy => ?_) fun pg hpg => hpg ▸ hb.not_avail
    rw [pageOf_eq_iff hpa.aligned] at hy
    exact memcpy_outside (by omega)
  have hg : Grows L o s F { s₁ with mem := memcpy s₁.mem pa a n } F₁ fun _ => False :=
    hb.grows.trans hw fun pg hpg => .inr (hpg ▸ hb.was_one)
  suffices hfill : ∀ x < 4096, C (vpn va) x (memcpy s₁.mem pa a n (pa + x)) by
    obtain ⟨F', he, _, hn⟩ := h.mapPage hf hu hr hg hb.was_one hb.not_avail hfill hok
    exact ⟨F', he, hn⟩
  intro x hx
  have hval := hC s₁ F₁ (h.grows.trans hb.grows fun _ h => h.elim) x hx
  by_cases hxn : x < n
  · rw [if_pos hxn] at hval
    rwa [memcpy_inside (by omega) (by omega), Nat.add_sub_cancel_left]
  · rw [if_neg hxn] at hval
    rwa [memcpy_outside (by omega), hb.mem, memset_inside (by omega) (by omega)]

/-- The page numbers with a source among the `k` pages from `va` on. -/
def loopPages (f : Nat → Option (Nat × Nat)) (va k : Nat) (v : Vpn) : Prop :=
  ∃ i < k, v = vpn (va + 4096 * i) ∧ (f (va + 4096 * i)).isSome

/-- A loop over pages whose sources do not change while it runs. -/
theorem Extend.mapLoop {k : Nat} {src : Mem → Nat → Option (Nat × Nat)} {f : Nat → Option (Nat × Nat)}
    (h : Extend L o s₀ F₀ root s F S C) (hf : flags < 1024) (hu : pteHas flags pteU)
    (hr : pteHas flags pteR ∧ pteHas flags pteW)
    (hsrc : ∀ t Ft, Grows L o s₀ F₀ t Ft (IsTable s₀.mem root) →
      ∀ i < k, src t.mem (va + 4096 * i) = f (va + 4096 * i))
    (hC : ∀ t Ft, Grows L o s₀ F₀ t Ft (IsTable s₀.mem root) →
      ∀ i < k, ∀ a n, f (va + 4096 * i) = some (a, n) →
        n ≤ 4096 ∧ ∀ x < 4096, C (vpn (va + 4096 * i)) x (if x < n then t.mem (a + x) else 0))
    (hok : s.mapLoop L o root flags src va k = .ok s') :
    ∃ F', Extend L o s₀ F₀ root s' F' (fun v => S v ∨ loopPages f va k v) C ∧
      NewLeaves flags (loopPages f va k) (leafAt s.mem root) (leafAt s'.mem root) := by
  induction k generalizing s F va S with
  | zero =>
      simp only [Phys.mapLoop, Except.ok.injEq] at hok
      subst hok
      have hS : (fun v => S v ∨ loopPages f va 0 v) = S := by
        funext v
        simp [loopPages]
      refine ⟨F, ?_, NewLeaves.refl.pages fun v => by simp [loopPages]⟩
      rw [hS]
      exact h
  | succ k ih =>
      have hshift : ∀ i, va + 4096 * (i + 1) = va + 4096 + 4096 * i := fun i => by omega
      have hsrc' : ∀ t Ft, Grows L o s₀ F₀ t Ft (IsTable s₀.mem root) → ∀ i < k,
          src t.mem (va + 4096 + 4096 * i) = f (va + 4096 + 4096 * i) := fun t Ft ht i hi => by
        have := hsrc t Ft ht (i + 1) (by omega)
        rwa [hshift i] at this
      have hC' : ∀ t Ft, Grows L o s₀ F₀ t Ft (IsTable s₀.mem root) → ∀ i < k, ∀ a n,
          f (va + 4096 + 4096 * i) = some (a, n) → n ≤ 4096 ∧ ∀ x < 4096,
            C (vpn (va + 4096 + 4096 * i)) x (if x < n then t.mem (a + x) else 0) :=
        fun t Ft ht i hi a n ha => by
          have := hC t Ft ht (i + 1) (by omega) a n
          rw [hshift i] at this
          exact this ha
      have h0 : src s.mem va = f va := hsrc s F h.grows 0 (by omega)
      have hset : ∀ v, loopPages f va (k + 1) v ↔
          (v = vpn va ∧ (f va).isSome) ∨ loopPages f (va + 4096) k v := by
        intro v
        constructor
        · rintro ⟨i, hi, hv, hs⟩
          cases i with
          | zero => exact .inl ⟨hv, hs⟩
          | succ i =>
              rw [hshift i] at hv hs
              exact .inr ⟨i, by omega, hv, hs⟩
        · rintro (⟨hv, hs⟩ | ⟨i, hi, hv, hs⟩)
          · exact ⟨0, by omega, hv, hs⟩
          · rw [← hshift i] at hv hs
            exact ⟨i + 1, by omega, hv, hs⟩
      rw [Phys.mapLoop, h0] at hok
      cases hfv : f va with
      | none =>
          simp only [hfv, ok_bind] at hok
          obtain ⟨F', h', hl⟩ := ih h hsrc' hC' hok
          have hS : (fun v => S v ∨ loopPages f va (k + 1) v) = fun v => S v ∨ loopPages f (va + 4096) k v := by
            funext v
            simp [hset, hfv]
          refine ⟨F', ?_, hl.pages fun v => by simp [hset, hfv]⟩
          rw [hS]
          exact h'
      | some p =>
          obtain ⟨a, n⟩ := p
          simp only [hfv, bind_eq_ok] at hok
          obtain ⟨s₁, h1, hok⟩ := hok
          obtain ⟨F₁, hx, hl₁⟩ := h.mapCopy hf hu hr (hC s F h.grows 0 (by omega) a n hfv).1
            (fun t Ft ht => (hC t Ft ht 0 (by omega) a n hfv).2) h1
          obtain ⟨F', h', hl⟩ := ih hx hsrc' hC' hok
          have hS : (fun v => S v ∨ loopPages f va (k + 1) v) =
              fun v => (S v ∨ v = vpn va) ∨ loopPages f (va + 4096) k v := by
            funext v
            simp [hset, hfv, or_assoc]
          refine ⟨F', ?_, (hl₁.trans hl).pages fun v => by simp [hset, hfv]⟩
          rw [hS]
          exact h'

/-! ## The map of a process -/

/-- The page number of an address below the kernel. -/
def BelowKernel (v : Vpn) : Prop := ∃ va < kernelBase, v = vpn va

/-- Page `pa` of the identity map. -/
structure IdentityPage (L : Layout) (pa : Nat) : Prop where
  ge : kernelBase ≤ pa
  lt : pa < L.freeRamEnd
  aligned : pa % 4096 = 0

/-- The entry of a page in the identity map. -/
def identityEntry (pa : Nat) : Nat := pa2pte pa (pteV ||| pteRWX ||| pteV)

/-- A valid entry is the user's, or it maps a page of the kernel to itself. -/
def SpaceMap (L : Layout) (m : Mem) (root : Nat) : Prop :=
  ∀ v, pteHas (leafAt m root v) pteV → (∃ pg, UserLeaf (leafAt m root v) pg) ∨
    ∃ pa, IdentityPage L pa ∧ v = vpn pa ∧ leafAt m root v = identityEntry pa

/-- All pages of the kernel are mapped to themselves. -/
def Identity (L : Layout) (m : Mem) (root : Nat) : Prop :=
  ∀ pa, IdentityPage L pa → leafAt m root (vpn pa) = identityEntry pa

theorem IdentityPage.lt_39 {pa : Nat} (h : IdentityPage L pa) : pa < 2 ^ 32 := by
  have := h.lt
  have := L.freeRamEnd_lt
  omega

theorem IdentityPage.not_below {pa : Nat} (h : IdentityPage L pa) : ¬BelowKernel (vpn pa) := by
  rintro ⟨va, hva, he⟩
  have := h.ge
  have := h.lt_39
  rw [vpn_eq_iff] at he
  unfold kernelBase at *
  omega

theorem identityEntry_has {mask : Nat} (hm : mask < 1024) :
    pteHas (identityEntry pa) mask = pteHas (pteV ||| pteRWX ||| pteV) mask :=
  pteHas_pa2pte (by decide) hm

theorem identityEntry_not_user : userFrame (identityEntry pa) = none := by
  rw [userFrame, identityEntry_has (by decide), identityEntry_has (by decide)]
  rfl

theorem valid_of_userFrame {e : Nat} (h : userFrame e = some pg) : pteHas e pteV = true := by
  unfold userFrame at h
  cases hv : pteHas e pteV with
  | true => rfl
  | false => simp [hv] at h

/-- The user has some right on each of its frames. -/
theorem SpaceMap.user (h : SpaceMap L m root) (hf : userFrame (leafAt m root v) = some pg) :
    UserLeaf (leafAt m root v) pg := by
  rcases h v (valid_of_userFrame hf) with ⟨pg', hl⟩ | ⟨pa, _, _, he⟩
  · obtain rfl : pg = pg' := Option.some.inj (hf.symm.trans hl.frame)
    exact hl
  · rw [he, identityEntry_not_user] at hf
    cases hf

theorem SpaceMap.rwx (h : SpaceMap L m root) (hv : pteHas (leafAt m root v) pteV) :
    pteHas (leafAt m root v) pteRWX := by
  rcases h v hv with ⟨pg, hl⟩ | ⟨pa, _, _, he⟩
  · exact hl.rwx
  · rw [he, identityEntry_has (by decide)]
    decide

/-- What is mapped below the kernel is the user's. -/
theorem SpaceMap.below (h : SpaceMap L m root) (hb : BelowKernel v) (hv : pteHas (leafAt m root v) pteV) :
    ∃ pg, UserLeaf (leafAt m root v) pg := by
  rcases h v hv with hl | ⟨pa, hp, rfl, _⟩
  · exact hl
  · exact absurd hb hp.not_below

theorem SpaceMap.congr (h : SpaceMap L m root) (he : leafAt m' root = leafAt m root) :
    SpaceMap L m' root := by
  unfold SpaceMap
  rw [he]
  exact h

/-- Fresh pages of the user. -/
theorem SpaceMap.extend (h : SpaceMap L s.mem root) (he : Extend L o s F root s' F' S C) :
    SpaceMap L s'.mem root := by
  intro v hv
  by_cases hs : S v
  · obtain ⟨pg, hl, _⟩ := he.leaf v hs
    exact .inl ⟨pg, hl⟩
  · rw [he.same v hs] at hv ⊢
    exact h v hv

theorem Identity.congr (h : Identity L m root) (he : leafAt m' root = leafAt m root) :
    Identity L m' root := by
  unfold Identity
  rw [he]
  exact h

/-- Fresh pages below the kernel. -/
theorem Identity.extend (h : Identity L s.mem root) (he : Extend L o s F root s' F' S C)
    (hS : ∀ v, S v → BelowKernel v) : Identity L s'.mem root := by
  intro pa hp
  rw [he.same _ fun hs => hp.not_below (hS _ hs), h pa hp]

theorem identityPages_eq (L : Layout) : kernelBase + 4096 * identityPages L = L.freeRamEnd := by
  have h1 := L.freeRamEnd_lt
  have h2 := L.freeRamEnd_aligned
  have h3 := L.kernelBase_lt_freeRam
  have h4 := L.freeRam_lt_end
  have hle : ¬L.freeRamEnd > 2 ^ 64 - 4096 := by omega
  rw [identityPages, Phys.pagesUpTo, if_neg hle]
  unfold kernelBase at *
  omega

theorem identityPage_iff : IdentityPage L pa ↔ ∃ i < identityPages L, pa = kernelBase + 4096 * i := by
  have he := identityPages_eq L
  constructor
  · rintro ⟨h1, h2, h3⟩
    refine ⟨(pa - kernelBase) / 4096, ?_, ?_⟩ <;> unfold kernelBase at * <;> omega
  · rintro ⟨i, hi, rfl⟩
    refine ⟨?_, ?_, ?_⟩ <;> unfold kernelBase at * <;> omega

/-- The pages of the new space were available, and they form a space that is well formed. -/
structure NewSpace (L : Layout) (o : Nat) (s : Phys) (F : List Nat) (root : Nat) (s' : Phys)
    (F' : List Nat) : Prop where
  grows : Grows L o s F s' F' fun _ => False
  space : SpaceOk L s' F' root
  new : ∀ pg, InSpace s'.mem root pg → Avail L s F pg
  map : SpaceMap L s'.mem root

/-- A root with the identity map. -/
theorem NewSpace.identity (hb : AllocBlock L o s F root 1 s₀ F₀) (hs : AllocOk L s F)
    (hok : s₀.mapRange L o root kernelBase kernelBase (pteV ||| pteRWX) (identityPages L) = .ok s') :
    ∃ F', NewSpace L o s F root s' F' ∧ Identity L s'.mem root ∧
      ∀ v, userFrame (leafAt s'.mem root v) = none := by
  have hp := hs.isPage hb.was_one
  have hz := hb.zero hp
  have he := identityPages_eq L
  have hend := L.freeRamEnd_lt
  obtain ⟨F', hr⟩ := mapRange_spec hb.grows.ok hb.grows.track (.of_zero hp hb.not_avail hz) (by omega)
    (by decide) hok
  have hleaf : ∀ v, leafAt s'.mem root v = rangeMap (fun _ => 0) kernelBase kernelBase (pteV ||| pteRWX)
      (identityPages L) v := by
    intro v
    have h0 : leafAt s₀.mem root = fun _ => 0 := funext fun v => leafAt_of_zero hp hz v
    rw [hr.leaf, h0]
  have hid : ∀ pa, IdentityPage L pa → leafAt s'.mem root (vpn pa) = identityEntry pa := by
    intro pa hpa
    obtain ⟨i, hi, rfl⟩ := identityPage_iff.mp hpa
    rw [hleaf, rangeMap_inside hi (by unfold kernelBase at *; omega)]
    rfl
  have hout : ∀ v, (∀ pa, IdentityPage L pa → v ≠ vpn pa) → leafAt s'.mem root v = 0 := by
    intro v hv
    rw [hleaf, rangeMap_outside fun i hi => hv _ (identityPage_iff.mpr ⟨i, hi, rfl⟩)]
  have hcase : ∀ v, leafAt s'.mem root v = 0 ∨ ∃ pa, IdentityPage L pa ∧ v = vpn pa := by
    intro v
    by_cases hv : ∃ pa, IdentityPage L pa ∧ v = vpn pa
    · exact .inr hv
    · exact .inl (hout v fun pa hpa he => hv ⟨pa, hpa, he⟩)
  have hnouser : ∀ v, userFrame (leafAt s'.mem root v) = none := by
    intro v
    rcases hcase v with h | ⟨pa, hpa, rfl⟩
    · rw [h, userFrame_zero]
    · rw [hid pa hpa, identityEntry_not_user]
  refine ⟨F', ⟨hb.grows.trans hr.grows fun pg ⟨q, hq⟩ => ?_, .of_tables hr.tables hnouser,
    fun pg ⟨q, hq⟩ => ?_, fun v hv => .inr ?_⟩, hid, hnouser⟩
  · obtain ⟨_, rfl⟩ := tableAt_of_zero hp hz hq
    exact .inr hb.was_one
  · rcases spaceAt_cases hq with hq | ⟨v, _, hv⟩
    · rcases hr.new q pg hq with hq | hx
      · obtain ⟨_, rfl⟩ := tableAt_of_zero hp hz hq
        exact hb.was_one
      · exact hb.grows.avail pg hx
    · rw [hnouser v] at hv
      cases hv
  · rcases hcase v with h | ⟨pa, hpa, rfl⟩
    · rw [h, pteHas_zero] at hv
      cases hv
    · exact ⟨pa, hpa, rfl, hid pa hpa⟩

/-- Fresh user pages in a new space. -/
theorem NewSpace.extend (h : NewSpace L o s F root s₀ F₀)
    (he : Extend L o s₀ F₀ root s' F' S C) : NewSpace L o s F root s' F' := by
  refine ⟨h.grows.trans he.grows fun pg hpg => .inr (h.new pg hpg.inSpace), he.space, fun pg ⟨q, hq⟩ => ?_,
    h.map.extend he⟩
  rcases spaceAt_cases hq with hq | ⟨v, _, hv⟩
  · rcases he.new q pg hq with hq | hx
    · exact h.new pg (IsTable.inSpace ⟨q, hq⟩)
    · exact h.grows.avail pg hx
  · by_cases hs : S v
    · obtain ⟨pg', hl, hx⟩ := he.leaf v hs
      obtain rfl : pg = pg' := Option.some.inj (hv.symm.trans hl.frame)
      exact h.grows.avail pg hx
    · rw [he.same v hs] at hv
      exact h.new pg (inSpace_of_frame hv)

/-- Writing to a page of the new space that is no table. -/
theorem NewSpace.write (h : NewSpace L o s F root s' F')
    (hm : ∀ a, pageOf a ≠ pg → m a = s'.mem a) (hav : Avail L s F pg) (hna : ¬Avail L s' F' pg)
    (hnt : ¬IsTable s'.mem root pg) : NewSpace L o s F root { s' with mem := m } F' := by
  have hw : Grows L o s' F' { s' with mem := m } F' (· = pg) :=
    .write h.grows.ok h.grows.track (fun a ha => hm a ha) fun pg' he => he ▸ hna
  have hmt : ∀ a, IsTable s'.mem root (pageOf a) → m a = s'.mem a := fun a ha =>
    hm a fun he => hnt (he ▸ ha)
  have hal : ∀ pg, IsTable s'.mem root pg → pg % 4096 = 0 := fun pg => h.space.tables.aligned
  refine ⟨h.grows.trans hw fun pg' he => .inr (he ▸ hav), ?_, ?_, ?_⟩
  · exact h.space.congr hmt fun pg hpg => (h.space.page pg hpg).2
  · rintro pg ⟨q, hq⟩
    exact h.new pg ⟨q, (congrFun (spaceAt_congr hmt hal) q).symm.trans hq⟩
  · exact h.map.congr (leafAt_congr hmt hal)

/-- Clearing a frame leaves the map alone. -/
theorem NewSpace.leafAt_clear (h : NewSpace L o s F root s' F') (hf : userFrame (leafAt s'.mem root v) = some pg) :
    leafAt (memset s'.mem pg 0 4096) root = leafAt s'.mem root := by
  have hal := (h.space.page pg (inSpace_of_frame hf)).1.aligned
  refine leafAt_congr (fun a ha => memset_outside fun hin => h.space.frame_not_table hf ?_)
    fun pg => h.space.tables.aligned
  rwa [(pageOf_eq_iff hal).mpr hin] at ha

section BuildSpace

variable {flatImage imageSize top bottom heapStart : Nat}

/-- The user's pages of a new program. -/
def ProgramPage (imageSize top bottom heapStart : Nat) (v : Vpn) : Prop :=
  (∃ i < (imageSize + 4095) / 4096, v = vpn (userBase + 4096 * i)) ∨
    (∃ i, bottom + 4096 * i ≤ top ∧ v = vpn (bottom + 4096 * i)) ∨ v = vpn heapStart

theorem ProgramPage.below (himg : userBase + imageSize ≤ kernelBase) (htop : top < kernelBase)
    (hheap : heapStart < kernelBase) (hv : ProgramPage imageSize top bottom heapStart v) :
    BelowKernel v := by
  rcases hv with ⟨i, hi, rfl⟩ | ⟨i, hi, rfl⟩ | rfl
  · exact ⟨_, by unfold userBase at *; omega, rfl⟩
  · exact ⟨_, by omega, rfl⟩
  · exact ⟨_, hheap, rfl⟩

/-- The pages of the stack and the heap. -/
def DataPage (top bottom heapStart : Nat) (v : Vpn) : Prop :=
  (∃ i, bottom + 4096 * i ≤ top ∧ v = vpn (bottom + 4096 * i)) ∨ v = vpn heapStart

/-- The flags of the pages of the program, and of its stack and heap. -/
def codeFlags : Nat := pteV ||| pteU ||| pteRWX

def dataFlags : Nat := pteV ||| pteR ||| pteW ||| pteU

/-- The pages of the program, where they are not replaced by others. -/
def CodePage (imageSize top bottom heapStart : Nat) (v : Vpn) : Prop :=
  (∃ i < (imageSize + 4095) / 4096, v = vpn (userBase + 4096 * i)) ∧ ¬DataPage top bottom heapStart v

theorem not_dataPage_userBase : ¬DataPage 0x1020000 0x1010000 0x3000000 (vpn userBase) := by
  rintro (⟨i, hi, h⟩ | h) <;> rw [vpn_eq_iff] at h <;> unfold userBase at h <;> omega

/-- Byte `x` of page `i` of a new program is the byte of the flat image, if its page there is not given to
somebody else meanwhile. -/
def ImageByte (L : Layout) (s : Phys) (F : List Nat) (flatImage imageSize top bottom heapStart : Nat)
    (v : Vpn) (x : Nat) (b : UInt8) : Prop :=
  userBase + imageSize ≤ kernelBase → ¬DataPage top bottom heapStart v → ∀ i < (imageSize + 4095) / 4096,
    v = vpn (userBase + 4096 * i) → ∀ a n, Phys.imageSource flatImage imageSize (userBase + 4096 * i) = (a, n) →
      ¬Avail L s F (pageOf (a + x)) → b = if x < n then s.mem (a + x) else 0

/-- A new space with the identity map, and the user's pages added to it. The page of the heap is cleared
at the end. -/
theorem buildSpace_steps (hs : AllocOk L s F) (ht : TrackOk L s F)
    (hok : s.buildSpace L o flatImage imageSize top bottom heapStart = .ok (root, s')) :
    ∃ t F₂ s₆ F₆ heapPage, NewSpace L o s F root t F₂ ∧ Identity L t.mem root ∧
      (∀ v, userFrame (leafAt t.mem root v) = none) ∧
      Extend L o t F₂ root s₆ F₆ (ProgramPage imageSize top bottom heapStart)
        (ImageByte L s F flatImage imageSize top bottom heapStart) ∧
      userFrame (leafAt s₆.mem root (vpn heapStart)) = some heapPage ∧
      s' = { s₆ with mem := memset s₆.mem heapPage 0 4096 } ∧
      (∀ v, CodePage imageSize top bottom heapStart v → Flagged codeFlags (leafAt s₆.mem root v)) ∧
      (∀ v, DataPage top bottom heapStart v → Flagged dataFlags (leafAt s₆.mem root v)) ∧
      ∀ v pg x, DataPage top bottom heapStart v → userFrame (leafAt s₆.mem root v) = some pg → x < 4096 →
        s₆.mem (pg + x) = 0 := by
  simp only [Phys.buildSpace, bind_eq_ok, Prod.exists, Except.ok.injEq, Prod.mk.injEq] at hok
  obtain ⟨pt, s₁, h1, s₂, h2, s₃, h3, s₄, h4, heapPage, s₅, h5, s₆, h6, rfl, hs'⟩ := hok
  obtain ⟨F₁, hb⟩ := allocPages_one hs ht h1
  obtain ⟨F₂, hn, hid, hnone⟩ := NewSpace.identity hb hs h2
  have he := Extend.refl (o := o) (C := ImageByte L s F flatImage imageSize top bottom heapStart)
    hn.grows.ok hn.grows.track hn.space
  have hsource : ∀ u Fu, Grows L o s₂ F₂ u Fu (IsTable s₂.mem pt) → ∀ a, ¬Avail L s F (pageOf a) →
      u.mem a = s.mem a := fun u Fu hu a ha =>
    (hn.grows.trans hu fun pg hpg => .inr (hn.new pg hpg.inSpace)).mem a ha id
  obtain ⟨F₃, he, hl3⟩ := he.mapLoop (by decide) (by decide) (by decide)
    (f := fun va => some (Phys.imageSource flatImage imageSize va)) (fun _ _ _ _ _ => rfl)
    (fun u Fu hu i _ a n ha => by
      refine ⟨?_, fun x _ himg _ j hj hij a' n' ha' hna => ?_⟩
      · simp only [Phys.imageSource, Option.some.injEq, Prod.mk.injEq] at ha
        obtain ⟨_, rfl⟩ := ha
        split <;> omega
      · rw [vpn_eq_iff] at hij
        obtain rfl : i = j := by
          unfold userBase kernelBase at *
          omega
        rw [Option.some.inj ha, Prod.mk.injEq] at ha'
        obtain ⟨rfl, rfl⟩ := ha'
        split
        · exact hsource u Fu hu _ hna
        · rfl) h3
  have he₃ := he
  obtain ⟨F₄, he, hl4⟩ := he.mapLoop (by decide) (by decide) (by decide) (f := fun _ => some (0, 0))
    (fun _ _ _ _ _ => rfl) (fun _ _ _ i hi a n ha => ⟨by
      simp only [Option.some.injEq, Prod.mk.injEq] at ha
      omega, fun _ _ _ hd => absurd (.inl ⟨i, by split at hi <;> omega, rfl⟩) hd⟩) h4
  obtain ⟨F₅, hb5⟩ := allocPages_one he.grows.ok he.grows.track h5
  obtain ⟨F₆, he', hheapPage, hl6⟩ := he.mapPage (by decide) (by decide) (by decide) hb5.grows hb5.was_one
    hb5.not_avail (fun _ _ _ hd => absurd (.inr rfl) hd) h6
  -- the pages of the stack and the heap come after those of the program
  have hdata : ∀ v, DataPage top bottom heapStart v ↔
      loopPages (fun _ => some (0, 0)) bottom (if bottom ≤ top then (top - bottom) / 4096 + 1 else 0) v ∨
        v = vpn heapStart := by
    intro v
    refine or_congr_left ⟨?_, ?_⟩
    · rintro ⟨i, hi, hv⟩
      refine ⟨i, ?_, hv, rfl⟩
      rw [if_pos (by omega)]
      omega
    · rintro ⟨i, hi, hv, _⟩
      refine ⟨i, ?_, hv⟩
      split at hi <;> omega
  obtain ⟨F₄', hz, -⟩ := (Extend.refl (o := o) (C := fun _ _ b => b = 0) he₃.grows.ok he₃.grows.track
    he₃.space).mapLoop (by decide) (by decide) (by decide) (f := fun _ => some (0, 0)) (fun _ _ _ _ _ => rfl)
      (fun _ _ _ i hi a n ha => by
        simp only [Option.some.injEq, Prod.mk.injEq] at ha
        obtain ⟨-, rfl⟩ := ha
        exact ⟨by omega, fun x _ => if_neg (Nat.not_lt_zero x)⟩) h4
  obtain ⟨F₅', hb5'⟩ := allocPages_one hz.grows.ok hz.grows.track h5
  obtain ⟨F₆', hz, -, -⟩ := hz.mapPage (by decide) (by decide) (by decide) hb5'.grows hb5'.was_one
    hb5'.not_avail (fun x hx => by
      rw [hb5'.mem]
      exact memset_inside (by omega) (by omega)) h6
  refine ⟨s₂, F₂, s₆, F₆, heapPage, hn, hid, hnone, he'.pages fun v => ?_, hheapPage, hs'.symm,
    fun v hcode => ?_, fun v hv => ?_, fun v pg x hv hpg hx => ?_⟩
  rotate_right 2
  · by_cases hh : v = vpn heapStart
    · exact hl6.flagged v hh
    · have hloop := ((hdata v).mp hv).resolve_right hh
      rw [hl6.same v hh]
      exact hl4.flagged v hloop
  · exact hz.fill v pg x (((hdata v).mp hv).imp_left .inr) hpg hx
  rotate_left
  · obtain ⟨⟨i, hi, hv⟩, hd⟩ := hcode
    rw [DataPage, not_or] at hd
    have hnot : ¬loopPages (fun _ => some (0, 0)) bottom
        (if bottom ≤ top then (top - bottom) / 4096 + 1 else 0) v := by
      rintro ⟨j, hj, hvj, _⟩
      refine hd.1 ⟨j, ?_, hvj⟩
      split at hj <;> omega
    rw [hl6.same v hd.2, hl4.same v hnot]
    exact hl3.flagged v ⟨i, hi, hv, rfl⟩
  unfold ProgramPage loopPages
  constructor
  · rintro (((h | ⟨i, hi, hv, _⟩) | ⟨i, hi, hv, _⟩) | hv)
    · exact h.elim
    · exact .inl ⟨i, hi, hv⟩
    · refine .inr (.inl ⟨i, ?_, hv⟩)
      split at hi <;> omega
    · exact .inr (.inr hv)
  · rintro (⟨i, hi, hv⟩ | ⟨i, hi, hv⟩ | hv)
    · exact .inl (.inl (.inr ⟨i, hi, hv, rfl⟩))
    · refine .inl (.inr ⟨i, ?_, hv, rfl⟩)
      rw [if_pos (by omega)]
      omega
    · exact .inr hv

/-- The space of a new program. -/
theorem buildSpace_spec (hs : AllocOk L s F) (ht : TrackOk L s F)
    (hok : s.buildSpace L o flatImage imageSize top bottom heapStart = .ok (root, s')) :
    ∃ F', NewSpace L o s F root s' F' ∧
      (∀ v pg, userFrame (leafAt s'.mem root v) = some pg → ProgramPage imageSize top bottom heapStart v) ∧
      (userBase + imageSize ≤ kernelBase → top < kernelBase → heapStart < kernelBase →
        Identity L s'.mem root) ∧
      (∀ v, CodePage imageSize top bottom heapStart v → CodeLeaf (leafAt s'.mem root v)) ∧
      (∀ v pg x, CodePage imageSize top bottom heapStart v → userFrame (leafAt s'.mem root v) = some pg →
        x < 4096 → ImageByte L s F flatImage imageSize top bottom heapStart v x (s'.mem (pg + x))) ∧
      (∀ v, DataPage top bottom heapStart v → DataLeaf (leafAt s'.mem root v)) ∧
      ∀ v pg x, DataPage top bottom heapStart v → userFrame (leafAt s'.mem root v) = some pg → x < 4096 →
        s'.mem (pg + x) = 0 := by
  obtain ⟨t, F₂, s₆, F₆, heapPage, hn, hid, hnone, he, hheapPage, rfl, hcode, hplain, hzero⟩ :=
    buildSpace_steps hs ht hok
  have hn6 := hn.extend he
  have hp := hn6.space.page heapPage (inSpace_of_frame hheapPage)
  have hnt := hn6.space.frame_not_table hheapPage
  have hmem : ∀ a, pageOf a ≠ heapPage → memset s₆.mem heapPage 0 4096 a = s₆.mem a := fun a ha => by
    rw [ne_eq, pageOf_eq_iff hp.1.aligned] at ha
    exact memset_outside ha
  have hleaf := hn6.leafAt_clear hheapPage
  refine ⟨F₆, hn6.write hmem (hn6.new _ (inSpace_of_frame hheapPage)) hp.2 hnt, fun v pg hv => ?_,
    fun himg htop hheap => ?_, fun v hv => ?_, fun v pg x hv hpg hx => ?_, fun v hv => ?_,
    fun v pg x hv hpg hx => ?_⟩
  · by_contra hne
    have hv : userFrame (leafAt (memset s₆.mem heapPage 0 4096) root v) = some pg := hv
    rw [hleaf, he.same v hne, hnone v] at hv
    cases hv
  · have hid6 : Identity L s₆.mem root := hid.extend he fun v hv => hv.below himg htop hheap
    exact hid6.congr hleaf
  · obtain ⟨pg, hl, _⟩ := he.leaf v (.inl hv.1)
    rw [hleaf]
    exact ⟨⟨pg, hl⟩, (hcode v hv).user (by decide) (by decide)⟩
  · rw [hleaf] at hpg
    have hne : pg ≠ heapPage := fun he => hv.2 (.inr (hn6.space.frame_inj (he ▸ hpg) hheapPage))
    have hpage := (hn6.space.page pg (inSpace_of_frame hpg)).1
    have hbyte : memset s₆.mem heapPage 0 4096 (pg + x) = s₆.mem (pg + x) :=
      hpage.congr_mem (fun a ha => hmem a (ha ▸ hne)) hx
    show ImageByte L s F flatImage imageSize top bottom heapStart v x (memset s₆.mem heapPage 0 4096 (pg + x))
    rw [hbyte]
    exact he.fill v pg x (.inl hv.1) hpg hx
  · obtain ⟨pg, hl, _⟩ := he.leaf v (.inr hv)
    rw [hleaf]
    exact ⟨⟨pg, hl⟩, (hplain v hv).user (by decide) (by decide)⟩
  · rw [hleaf] at hpg
    show memset s₆.mem heapPage 0 4096 (pg + x) = 0
    by_cases hin : heapPage ≤ pg + x ∧ pg + x < heapPage + 4096
    · exact memset_inside hin.1 hin.2
    · rw [memset_outside hin]
      exact hzero v pg x hv hpg hx

/-- The user's pages of a new program, with their flags. -/
theorem buildSpace_user (hs : AllocOk L s F) (ht : TrackOk L s F)
    (hok : s.buildSpace L o flatImage imageSize top bottom heapStart = .ok (root, s')) :
    (∀ v, (userFrame (leafAt s'.mem root v)).isSome ↔ ProgramPage imageSize top bottom heapStart v) ∧
      (∀ v, CodePage imageSize top bottom heapStart v → Flagged codeFlags (leafAt s'.mem root v)) ∧
      ∀ v, DataPage top bottom heapStart v → Flagged dataFlags (leafAt s'.mem root v) := by
  obtain ⟨t, F₂, s₆, F₆, heapPage, hn, -, hnone, he, hheapPage, rfl, hcode, hplain, -⟩ :=
    buildSpace_steps hs ht hok
  rw [(hn.extend he).leafAt_clear hheapPage]
  refine ⟨fun v => ⟨fun hv => ?_, fun hv => ?_⟩, hcode, hplain⟩
  · by_contra hne
    rw [he.same v hne, hnone v] at hv
    cases hv
  · obtain ⟨pg, hl, -⟩ := he.leaf v hv
    rw [hl.frame]
    rfl

end BuildSpace

end RiscvOs
