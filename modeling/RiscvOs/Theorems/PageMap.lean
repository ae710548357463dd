import RiscvOs.Theorems.Allocator

/-!
# A page table is one finite map

`map_page` and `unmap_page` calls on a table that starts as a zeroed page, and what the three walkers
find after any sequence of them.
-/

namespace RiscvOs

open ByteMem Lts Outcome

/-- A frame with its access rights, as a caller may pass them to `map_page`. -/
structure Mapping where
  frame : Nat
  flags : Nat
  frame_ne : frame ≠ 0
  aligned : frame % 4096 = 0
  frame_lt : frame < 2 ^ 56
  flags_lt : flags < 1024
  rwx : pteHas flags (pteR ||| pteW ||| pteX)

/-- The entry that maps it. -/
def Mapping.entry (e : Mapping) : Nat := pa2pte e.frame (e.flags ||| pteV)

/-- A map from the page numbers of 39-bit addresses. -/
abbrev PageMap := Fin (2 ^ 27) → Option Mapping

inductive TableOp
  | map (n : Fin (2 ^ 27)) (e : Mapping)
  | unmap (n : Fin (2 ^ 27))

def PageMap.apply (M : PageMap) : TableOp → PageMap
  | .map n e => Function.update M n (some e)
  | .unmap n => Function.update M n none

def PageMap.empty : PageMap := fun _ => none

/-- The frame that a page has in the map, 0 if it has none. -/
def PageMap.frame (M : PageMap) (n : Fin (2 ^ 27)) : Nat := ((M n).map Mapping.frame).getD 0

/-- The leaf entry of a page in the map. -/
def PageMap.entry (M : PageMap) (n : Fin (2 ^ 27)) : Nat := ((M n).map Mapping.entry).getD 0

/-- The page number of a 39-bit address. -/
def pageNo (va : Nat) : Fin (2 ^ 27) := ⟨va / 4096 % 2 ^ 27, by omega⟩

inductive TableStep (L : Layout) (root : Nat) : Phys → TableOp → Phys → Prop
  | map {s s' : Phys} {owner : Nat} {n : Fin (2 ^ 27)} {e : Mapping} :
      s.mapPage L owner root (4096 * n) e.frame e.flags = .ok s' → TableStep L root s (.map n e) s'
  | unmap {s s' : Phys} {n : Fin (2 ^ 27)} :
      s.unmapPage root (4096 * n) = .ok s' → TableStep L root s (.unmap n) s'

/-- After some run of the allocator the page at `root` is out, and it is zeroed. -/
def FreshRoot (L : Layout) (s : Phys) (root : Nat) : Prop :=
  ∃ m l p, Run (PoolStep L) (Pool.boot L m) l p ∧ p.phys = s ∧ root ∈ p.outstanding ∧
    ∀ a, pageOf a = root → s.mem a = 0

/-- The invariant of a run: the tables are well formed and their entries are those of the map. -/
structure Implements (L : Layout) (s : Phys) (F : List Nat) (root : Nat) (M : PageMap) : Prop where
  ok : AllocOk L s F
  track : TrackOk L s F
  tables : TablesOk L s F root
  leaf : ∀ n : Fin (2 ^ 27), leafAt s.mem root (vpn (4096 * n)) = M.entry n

variable {L : Layout} {s s₀ s' : Phys} {F : List Nat} {root owner va : Nat} {M : PageMap}
  {n n' : Fin (2 ^ 27)} {e : Mapping} {o : TableOp} {l : List TableOp} {m : Mem}

theorem vpn_page_inj : vpn (4096 * n) = vpn (4096 * n') ↔ n = n' := by
  have := n.isLt
  have := n'.isLt
  rw [vpn_eq_iff, Fin.ext_iff]
  omega

theorem vpn_pageNo (va : Nat) : vpn (4096 * pageNo va) = vpn va := by
  rw [vpn_eq_iff]
  simp only [pageNo]
  omega

theorem Mapping.pteNext_entry (e : Mapping) : pteNext e.entry = some e.frame := by
  have hf := or_pteV_lt e.flags_lt
  rw [pteNext, entry, pteHas_pa2pte hf (by decide), pteHas_or_pteV,
    pte2pa_pa2pte e.aligned e.frame_lt hf]
  rfl

theorem Mapping.entry_rwx (e : Mapping) : pteHas e.entry (pteR ||| pteW ||| pteX) = true := by
  rw [entry, pteHas_pa2pte (or_pteV_lt e.flags_lt) (by decide),
    pteHas_or_pteV_of_even _ (by decide)]
  exact e.rwx

theorem Implements.start (h : FreshRoot L s root) : ∃ F, Implements L s F root .empty := by
  obtain ⟨m, l, p, hrun, rfl, hout, hzero⟩ := h
  obtain ⟨F, hi⟩ := (Pool.Inv.boot L m).run hrun
  have hr := hi.out root hout
  refine ⟨F, hi.ok, hi.track, .of_zero hr.1 hr.2 hzero, fun n => ?_⟩
  rw [leafAt_of_zero hr.1 hzero]
  rfl

theorem Implements.mapPage (hi : Implements L s F root M)
    (h : s.mapPage L owner root (4096 * n) e.frame e.flags = .ok s') :
    ∃ F', Implements L s' F' root (M.apply (.map n e)) := by
  obtain ⟨_, _, F', hr⟩ := mapPage_spec hi.ok hi.track hi.tables e.frame_lt e.flags_lt h
  refine ⟨F', hr.grows.ok, hr.grows.track, hr.tables, fun n' => ?_⟩
  rw [hr.leaf, PageMap.entry, PageMap.apply]
  by_cases hn : n' = n
  · subst hn
    simp [Mapping.entry]
  · have : vpn (4096 * n') ≠ vpn (4096 * n) := fun he => hn (vpn_page_inj.mp he)
    rw [Function.update_of_ne this, Function.update_of_ne hn, hi.leaf, PageMap.entry]

theorem Implements.unmapPage (hi : Implements L s F root M)
    (h : s.unmapPage root (4096 * n) = .ok s') : Implements L s' F root (M.apply (.unmap n)) := by
  obtain ⟨_, hr⟩ := unmapPage_spec (o := 0) hi.ok hi.track hi.tables h
  refine ⟨hr.grows.ok, hr.grows.track, hr.tables, fun n' => ?_⟩
  rw [hr.leaf, PageMap.entry, PageMap.apply]
  by_cases hn : n' = n
  · subst hn
    simp
  · have : vpn (4096 * n') ≠ vpn (4096 * n) := fun he => hn (vpn_page_inj.mp he)
    rw [Function.update_of_ne this, Function.update_of_ne hn, hi.leaf, PageMap.entry]

theorem Implements.step (hi : Implements L s F root M) (h : TableStep L root s o s') :
    ∃ F', Implements L s' F' root (M.apply o) := by
  cases h with
  | map h => exact hi.mapPage h
  | unmap h => exact ⟨F, hi.unmapPage h⟩

theorem Implements.run (hi : Implements L s F root M) (h : Run (TableStep L root) s l s') :
    ∃ F', Implements L s' F' root (l.foldl PageMap.apply M) := by
  induction h generalizing F M with
  | nil => exact ⟨F, hi⟩
  | cons hs _ ih =>
      obtain ⟨F', hi'⟩ := hi.step hs
      exact ih hi'

/-! ## What the walkers find -/

theorem Implements.walkPage (hi : Implements L s F root M) (va : Nat) :
    Phys.walkPage s.mem root va = M.frame (pageNo va) := by
  rw [walkPage_eq, ← vpn_pageNo va, hi.leaf, PageMap.entry, PageMap.frame]
  cases M (pageNo va) with
  | none => simp
  | some e => simp [e.pteNext_entry]

/-- Where all tables exist, `map_page` is one store to the entry that `walk` points at. -/
theorem mapPage_of_table {t pa flags : Nat} (hva : va % 4096 = 0) (hpa : pa % 4096 = 0)
    (h : tableAt s.mem root [px 2 va, px 1 va] = some t) :
    s.mapPage L owner root va pa flags =
      .ok { s with mem := store64 s.mem (t + 8 * px 0 va) (pa2pte pa flags ||| pteV) } := by
  rw [tableAt_two] at h
  obtain ⟨l1, h1, h2⟩ := Option.bind_eq_some_iff.mp h
  simp only [pteNext, Option.ite_none_right_eq_some, Option.some.injEq] at h1 h2
  obtain ⟨hv1, rfl⟩ := h1
  obtain ⟨hv2, rfl⟩ := h2
  simp [Phys.mapPage, Phys.nextTable, hva, hpa, hv1, hv2, setPte]

theorem Implements.walk (hi : Implements L s F root M) (owner : Nat) (hva : va < 2 ^ 39) :
    ∃ p, s.walk L owner root va false = .ok (p, s) ∧
      (p = 0 ∧ M (pageNo va) = none ∨
        p ≠ 0 ∧ load64 s.mem p = M.entry (pageNo va) ∧
          ∀ owner' e s', s.mapPage L owner' root (4096 * pageNo va) (Mapping.frame e) e.flags = .ok s' →
            s'.mem = store64 s.mem p e.entry) := by
  have hleaf := hi.leaf (pageNo va)
  rw [vpn_pageNo] at hleaf
  cases ht : tableAt s.mem root [px 2 va, px 1 va] with
  | none =>
      have h0 : leafAt s.mem root (vpn va) = 0 := leafAt_of_none (v := vpn va) ht
      rw [h0, PageMap.entry] at hleaf
      refine ⟨0, walk_of_none hva ht, .inl ⟨rfl, ?_⟩⟩
      cases hM : M (pageNo va) with
      | none => rfl
      | some e =>
          have h0 : e.entry = 0 := by simpa [hM] using hleaf.symm
          have := e.pteNext_entry
          rw [h0, pteNext_zero] at this
          cases this
  | some t =>
      have htp := (hi.tables.page t ⟨_, ht⟩).1.ne_zero
      have he : leafAt s.mem root (vpn va) = pteAt s.mem t (px 0 va) :=
        leafAt_of_table (v := vpn va) ht
      rw [he] at hleaf
      refine ⟨_, walk_of_table hva ht, .inr ⟨by omega, hleaf, fun owner' e s' h => ?_⟩⟩
      have hvp := vpn_pageNo va
      simp only [vpn, Prod.mk.injEq] at hvp
      rw [mapPage_of_table (t := t) (by omega) e.aligned (by rw [hvp.1, hvp.2.1]; exact ht),
        Except.ok.injEq] at h
      rw [← h, hvp.2.2, pa2pte_or]
      rfl

theorem Implements.walkaddr (hi : Implements L s F root M) (hva : va < kernelBase) :
    s.walkaddr L owner root va =
      .ok (if M.frame (pageNo va) = 0 then 0 else M.frame (pageNo va) + (va &&& 0xFFF)) := by
  have hk : ¬va ≥ kernelBase := by omega
  obtain ⟨p, hw, hp⟩ := hi.walk owner (show va < 2 ^ 39 by unfold kernelBase at hva; omega)
  simp only [Phys.walkaddr, hk, ↓reduceIte, hw, ok_bind]
  have hand : va &&& 0xFFF = va % 4096 := Nat.and_two_pow_sub_one_eq_mod va 12
  rcases hp with ⟨rfl, hM⟩ | ⟨hp, hload, _⟩
  · simp [PageMap.frame, hM]
  · rw [if_neg hp, hload, PageMap.entry, PageMap.frame]
    cases hM : M (pageNo va) with
    | none => simp
    | some e =>
        have hn := e.pteNext_entry
        simp only [pteNext, Option.ite_none_right_eq_some, Option.some.injEq] at hn
        have := e.frame_lt
        simp only [Option.map_some, Option.getD_some, hn.1, e.entry_rwx, Bool.not_true,
          Bool.false_eq_true, ↓reduceIte, hn.2, e.frame_ne, hand]
        rw [Nat.mod_eq_of_lt (by omega)]

/-- A table that calls of `map_page` and `unmap_page` have built from a zeroed root is the finite map that
these calls describe: the next call changes it at one page, and the three walkers read it. -/
theorem tableRun_map (hroot : FreshRoot L s₀ root) (h : Run (TableStep L root) s₀ l s) :
    (∀ va, Phys.walkPage s.mem root va = (l.foldl PageMap.apply .empty).frame (pageNo va)) ∧
    (∀ owner n e s', s.mapPage L owner root (4096 * Fin.val n) (Mapping.frame e) e.flags = .ok s' →
      ∀ va, Phys.walkPage s'.mem root va =
        if pageNo va = n then e.frame else Phys.walkPage s.mem root va) ∧
    (∀ n s', s.unmapPage root (4096 * Fin.val n) = .ok s' →
      ∀ va, Phys.walkPage s'.mem root va = if pageNo va = n then 0 else Phys.walkPage s.mem root va) ∧
    (∀ owner va, va < 2 ^ 39 → ∃ p, s.walk L owner root va false = .ok (p, s) ∧
      (p = 0 ∧ Phys.walkPage s.mem root va = 0 ∨
        p ≠ 0 ∧ load64 s.mem p = (l.foldl PageMap.apply .empty).entry (pageNo va) ∧
          ∀ owner' e s',
            s.mapPage L owner' root (4096 * pageNo va) (Mapping.frame e) e.flags = .ok s' →
              s'.mem = store64 s.mem p e.entry)) ∧
    ∀ owner va, va < kernelBase → s.walkaddr L owner root va =
      .ok (if Phys.walkPage s.mem root (va - va % 4096) = 0 then 0
        else Phys.walkPage s.mem root (va - va % 4096) + (va &&& 0xFFF)) := by
  obtain ⟨F₀, h0⟩ := Implements.start hroot
  obtain ⟨F, hi⟩ := h0.run h
  refine ⟨hi.walkPage, fun owner n e s' h va => ?_, fun n s' h va => ?_, fun owner va hva => ?_,
    fun owner va hva => ?_⟩
  · obtain ⟨F', hi'⟩ := hi.mapPage h
    rw [hi'.walkPage, hi.walkPage, PageMap.frame, PageMap.apply, Function.update_apply]
    split
    · simp
    · rfl
  · rw [(hi.unmapPage h).walkPage, hi.walkPage, PageMap.frame, PageMap.apply, Function.update_apply]
    split
    · simp
    · rfl
  · obtain ⟨p, hw, hp⟩ := hi.walk owner hva
    refine ⟨p, hw, hp.imp_left fun ⟨h0, hM⟩ => ⟨h0, ?_⟩⟩
    rw [hi.walkPage, PageMap.frame, hM]
    rfl
  · have hpage : pageNo (va - va % 4096) = pageNo va := by
      simp only [pageNo, Fin.mk.injEq]
      omega
    rw [hi.walkaddr hva, hi.walkPage, hpage]

/-- A zeroed root right after boot. -/
theorem FreshRoot.boot : ∃ s, FreshRoot .kernelMap s 0x804cb000 ∧ 2 ≤ s.room .kernelMap := by
  have ha := Phys.allocPages_of_bump (L := .kernelMap) (s := Phys.boot .kernelMap fun _ => 0) (o := 0)
    (n := 1) (fun _ => rfl) (by decide)
  have hstep := PoolStep.alloc (p := Pool.boot .kernelMap fun _ => 0) Nat.one_pos (by decide) ha
  refine ⟨_, ⟨_, _, _, .single hstep, rfl, ?_, fun a _ => ?_⟩, ?_⟩
  · exact Finset.mem_union_right _ (mem_block.mpr ⟨0, Nat.one_pos, rfl⟩)
  · rw [Phys.trackAlloc_mem]
    simp only [memset, write]
    split <;> rfl
  · simp only [Phys.room, Phys.trackAlloc_gFreePages, Phys.trackAlloc_nextPaddr]
    decide

/-- At an address inside an unmapped page `walkaddr` returns 0, not the offset. -/
theorem walkaddr_unmapped :
    ¬∀ (L : Layout) (root : Nat) (s₀ s : Phys) (l : List TableOp), FreshRoot L s₀ root →
      Run (TableStep L root) s₀ l s → ∀ owner va, va < kernelBase →
        s.walkaddr L owner root va =
          .ok (Phys.walkPage s.mem root (va - va % 4096) + (va &&& 0xFFF)) := by
  intro h
  obtain ⟨s, hs, _⟩ := FreshRoot.boot
  obtain ⟨F, hi⟩ := Implements.start hs
  have hw := h _ _ _ _ _ hs .nil 0 0x1000001 (by decide)
  rw [hi.walkaddr (by decide), hi.walkPage] at hw
  simp [PageMap.frame, PageMap.empty] at hw

/-- A page of the user's program, mapped and unmapped again. -/
theorem tableRun_map_user :
    ∃ s₀ s, FreshRoot .kernelMap s₀ 0x804cb000 ∧
      Run (TableStep .kernelMap 0x804cb000) s₀
        [.map 0x1000 ⟨0x80500000, 0x1F, by decide, by decide, by decide, by decide, by decide⟩,
          .unmap 0x1000] s ∧
      ∀ va, Phys.walkPage s.mem 0x804cb000 va = 0 := by
  obtain ⟨s₀, hs, hroom⟩ := FreshRoot.boot
  obtain ⟨F, hi⟩ := Implements.start hs
  obtain ⟨s₁, h1, _⟩ : ∃ s₁, s₀.mapPage .kernelMap 0 0x804cb000 (4096 * Fin.val (0x1000 : Fin (2 ^ 27)))
      0x80500000 0x1F = .ok s₁ ∧ s₀.room .kernelMap ≤ s₁.room .kernelMap + 2 :=
    mapPage_room hi.ok hi.track hi.tables (by decide) (by decide) hroom
  obtain ⟨s₂, h2⟩ : ∃ s₂, s₁.unmapPage 0x804cb000 (4096 * Fin.val (0x1000 : Fin (2 ^ 27))) = .ok s₂ :=
    unmapPage_total (by decide)
  have hrun := Run.cons (TableStep.map (e := ⟨0x80500000, 0x1F, by decide, by decide, by decide,
    by decide, by decide⟩) h1) (.single (TableStep.unmap h2))
  refine ⟨s₀, s₂, hs, hrun, fun va => ?_⟩
  rw [(tableRun_map hs hrun).1 va]
  by_cases hn : pageNo va = 0x1000
  · simp [PageMap.frame, PageMap.apply, hn]
  · simp [PageMap.frame, PageMap.apply, PageMap.empty, hn]

end RiscvOs
