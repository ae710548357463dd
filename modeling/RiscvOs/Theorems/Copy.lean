import RiscvOs.Theorems.Tar
import RiscvOs.Copy

/-!
# What a copy to a user does

`copy_to_user` fills the user's view up to the first byte that is not mapped, and changes nothing else.
-/

namespace RiscvOs

open ByteMem Outcome

variable {L : Layout} {s : Phys} {m m' : Mem} {owner root dst src len va va' pa i n : Nat}

/-! ## The user's bytes -/

/-- The frame of a mapped page below the kernel. -/
def mappedFrame (m : Mem) (root va : Nat) : Option Nat :=
  if va < kernelBase ∧ pteHas (leafAt m root (vpn va)) pteV ∧
      pteHas (leafAt m root (vpn va)) (pteR ||| pteW ||| pteX) then
    some (pte2pa (leafAt m root (vpn va)))
  else none

/-- Where the byte at `va` lies. -/
def mappedByte (m : Mem) (root va : Nat) : Option Nat := (mappedFrame m root va).map (· + va % 4096)

/-- Distinct user pages have distinct frames. -/
def FramesDistinct (m : Mem) (root : Nat) : Prop :=
  ∀ va va' f, mappedFrame m root va = some f → mappedFrame m root va' = some f → va / 4096 = va' / 4096

/-- Besides, the tables are pages and no frames, and neither is at the address 0, which is the null pointer. -/
structure FramesApart (m : Mem) (root : Nat) : Prop where
  aligned : root % 4096 = 0
  distinct : FramesDistinct m root
  frame : ∀ va f, mappedFrame m root va = some f → f ≠ 0 ∧ ¬IsTable m root f
  table : ¬IsTable m root 0

theorem mappedFrame_aligned {f : Nat} (h : mappedFrame m root va = some f) : f % 4096 = 0 ∧ f < 2 ^ 64 := by
  unfold mappedFrame at h
  split at h
  · obtain rfl := Option.some.inj h
    exact ⟨pte2pa_aligned _, Nat.mod_lt _ (by decide)⟩
  · cases h

theorem mappedByte_eq_some : mappedByte m root va = some pa ↔ ∃ f, mappedFrame m root va = some f ∧ f + va % 4096 = pa :=
  Option.map_eq_some_iff

theorem pageOf_mappedByte {f : Nat} (h : mappedFrame m root va = some f) : pageOf (f + va % 4096) = f := by
  have := (mappedFrame_aligned h).1
  unfold pageOf
  omega

/-- A byte has one address. -/
theorem FramesDistinct.byte_inj (h : FramesDistinct m root) (h1 : mappedByte m root va = some pa)
    (h2 : mappedByte m root va' = some pa) : va = va' := by
  obtain ⟨f, hf, he⟩ := mappedByte_eq_some.mp h1
  obtain ⟨f', hf', he'⟩ := mappedByte_eq_some.mp h2
  have := (mappedFrame_aligned hf).1
  have := (mappedFrame_aligned hf').1
  obtain rfl : f = f' := by omega
  have := h va va' f hf hf'
  omega

/-! ## The walk -/

/-- `walkaddr` of a table that has no page at the address 0. -/
theorem walkaddr_eq (ht : ¬IsTable s.mem root 0) :
    s.walkaddr L owner root va = .ok ((mappedByte s.mem root va).getD 0) := by
  unfold Phys.walkaddr mappedByte mappedFrame
  by_cases hva : va < kernelBase
  · have h39 : va < 2 ^ 39 := by
      unfold kernelBase at hva
      omega
    rw [if_neg (Nat.not_le.mpr hva)]
    cases htab : tableAt s.mem root [px 2 va, px 1 va] with
    | none =>
        have hleaf : leafAt s.mem root (vpn va) = 0 := leafAt_of_none htab
        rw [walk_of_none h39 htab, hleaf, if_neg (by simp [pteHas])]
        rfl
    | some t =>
        have hleaf : leafAt s.mem root (vpn va) = load64 s.mem (t + 8 * px 0 va) := leafAt_of_table htab
        have hne : t + 8 * (px 0 va : Nat) ≠ 0 := fun h0 => ht ⟨_, (show t = 0 by omega) ▸ htab⟩
        have hand : va &&& 0xFFF = va % 4096 := Nat.and_two_pow_sub_one_eq_mod va 12
        rw [walk_of_table h39 htab, ok_bind]
        dsimp only
        rw [if_neg hne, hleaf]
        generalize load64 s.mem (t + 8 * (px 0 va : Nat)) = pte
        have hlt : pte2pa pte + va % 4096 < 18446744073709551616 := by
          have h1 := pte2pa_aligned pte
          have h2 : pte2pa pte < 2 ^ 64 := Nat.mod_lt _ (by decide)
          omega
        cases hv : pteHas pte pteV <;> cases hrwx : pteHas pte (pteR ||| pteW ||| pteX) <;>
          simp [hva, hand, hlt]
  · rw [if_pos (Nat.not_lt.mp hva)]
    simp [hva]

/-- The user's bytes stay where they are if the tables do. -/
theorem mappedByte_congr (h : ∀ a, IsTable m root (pageOf a) → m' a = m a) (hr : root % 4096 = 0) :
    mappedByte m' root = mappedByte m root := by
  funext va
  unfold mappedByte mappedFrame
  rw [leafAt_congr h fun pg hpg => isTable_aligned hr hpg]

/-! ## The copy -/

/-- The user's byte `i` of a copy to `dst`. -/
def dstByte (m : Mem) (root dst i : Nat) : Option Nat := mappedByte m root ((dst + i) % 2 ^ 64)

/-- The source lies outside the frames of the user. -/
def SourceApart (m : Mem) (root src len : Nat) : Prop :=
  ∀ j < len, ∀ va f, mappedFrame m root va = some f → pageOf ((src + j) % 2 ^ 64) ≠ f

/-- The memory `m'` after the first `i` bytes. -/
structure CopiedTo (m : Mem) (root dst src i : Nat) (m' : Mem) : Prop where
  copied : ∀ j < i, ∀ pa, dstByte m root dst j = some pa → m' pa = m ((src + j) % 2 ^ 64)
  other : ∀ a, (∀ j < i, dstByte m root dst j ≠ some a) → m' a = m a

namespace CopiedTo

theorem zero : CopiedTo m root dst src 0 m := ⟨fun _ h => absurd h (Nat.not_lt_zero _), fun _ _ => rfl⟩

/-- What is not in a frame of the user is as before. -/
theorem outside (h : CopiedTo m root dst src i m') {a : Nat} (ha : ∀ va f, mappedFrame m root va = some f → pageOf a ≠ f) :
    m' a = m a := by
  refine h.other a fun j _ hj => ?_
  obtain ⟨f, hf, rfl⟩ := mappedByte_eq_some.mp hj
  exact ha _ f hf (pageOf_mappedByte hf)

/-- The user's bytes are where they were. -/
theorem mapped (h : CopiedTo m root dst src i m') (hm : FramesApart m root) : mappedByte m' root = mappedByte m root :=
  mappedByte_congr (fun _ ha => h.outside fun va f hf he => (hm.frame va f hf).2 (he ▸ ha)) hm.aligned

theorem table (h : CopiedTo m root dst src i m') (hm : FramesApart m root) : ¬IsTable m' root 0 := by
  rintro ⟨q, hq⟩
  refine hm.table ⟨q, ?_⟩
  rwa [tableAt_congr (fun _ ha => h.outside fun va f hf he => (hm.frame va f hf).2 (he ▸ ha))
    fun pg hpg => isTable_aligned hm.aligned hpg] at hq

/-- One more byte. -/
theorem succ (h : CopiedTo m root dst src i m') (hm : FramesDistinct m root) (hi : i < 2 ^ 64)
    (hpa : dstByte m root dst i = some pa) (hsrc : m' ((src + i) % 2 ^ 64) = m ((src + i) % 2 ^ 64)) :
    CopiedTo m root dst src (i + 1) (Function.update m' pa (m' ((src + i) % 2 ^ 64))) where
  copied j hj b hb := by
    rcases Nat.lt_succ_iff_lt_or_eq.mp hj with hlt | rfl
    · have hne : b ≠ pa := by
        rintro rfl
        have := hm.byte_inj hb hpa
        omega
      rw [Function.update_of_ne hne]
      exact h.copied j hlt b hb
    · obtain rfl := Option.some.inj (hb.symm.trans hpa)
      rw [Function.update_self, hsrc]
  other a ha := by
    have hne : a ≠ pa := by
      rintro rfl
      exact ha i (Nat.lt_succ_self i) hpa
    rw [Function.update_of_ne hne]
    exact h.other a fun j hj => ha j (Nat.lt_succ_of_lt hj)

end CopiedTo

/-- The loop, from byte `i` on. -/
theorem copyToUserFrom_spec (L : Layout) (owner : Nat) (hm : FramesApart s.mem root) (hsrc : SourceApart s.mem root src (i + n))
    (hlen : i + n < 2 ^ 64) (h : CopiedTo s.mem root dst src i m') :
    ∃ k m'', i ≤ k ∧ k ≤ i + n ∧ (∀ j, i ≤ j → j < k → (dstByte s.mem root dst j).isSome) ∧
      (k < i + n → dstByte s.mem root dst k = none) ∧ CopiedTo s.mem root dst src k m'' ∧
      Phys.copyToUserFrom L { s with mem := m' } owner root dst src i n =
        .ok (if k = i + n then 0 else -1, { s with mem := m'' }) := by
  induction n generalizing i m' with
  | zero =>
      refine ⟨i, m', Nat.le_refl _, Nat.le_refl _, fun j h1 h2 => absurd h1 (Nat.not_le.mpr h2),
        fun hlt => absurd hlt (Nat.lt_irrefl _), h, ?_⟩
      rw [if_pos (Nat.add_zero i).symm]
      rfl
  | succ n ih =>
      have hwalk : Phys.walkaddr L { s with mem := m' } owner root ((dst + i) % 2 ^ 64) =
          .ok ((dstByte s.mem root dst i).getD 0) := by
        rw [walkaddr_eq (s := { s with mem := m' }) (h.table hm)]
        dsimp only
        rw [h.mapped hm]
        rfl
      rw [Phys.copyToUserFrom, hwalk, ok_bind]
      cases hb : dstByte s.mem root dst i with
      | none =>
          refine ⟨i, m', Nat.le_refl _, by omega, fun j h1 h2 => absurd h1 (Nat.not_le.mpr h2), fun _ => hb, h, ?_⟩
          rw [Option.getD_none, if_pos rfl, if_neg (by omega)]
      | some pa =>
          obtain ⟨f, hf, hpa⟩ := mappedByte_eq_some.mp hb
          have hne : pa ≠ 0 := by
            have := (hm.frame _ f hf).1
            omega
          have hold : m' ((src + i) % 2 ^ 64) = s.mem ((src + i) % 2 ^ 64) :=
            h.outside fun va f hf => hsrc i (by omega) va f hf
          have hnext := h.succ hm.distinct (by omega) hb hold
          have hn : i + (n + 1) = i + 1 + n := by omega
          rw [hn] at hsrc hlen ⊢
          obtain ⟨k, m'', h1, h2, hall, hstop, hcopied, hrun⟩ := ih hsrc hlen hnext
          refine ⟨k, m'', by omega, h2, fun j hj hjk => ?_, hstop, hcopied, ?_⟩
          · rcases Nat.eq_or_lt_of_le hj with rfl | hlt
            · rw [hb]
              rfl
            · exact hall j hlt hjk
          · rw [Option.getD_some, if_neg hne]
            exact hrun

/-- The tables that the kernel makes are of this kind. -/
theorem SpaceMap.framesApart {F : List Nat} (h : SpaceMap L s.mem root) (hs : SpaceOk L s F root) :
    FramesApart s.mem root := by
  have huser : ∀ va f, mappedFrame s.mem root va = some f →
      va < kernelBase ∧ userFrame (leafAt s.mem root (vpn va)) = some f := by
    intro va f hf
    simp only [mappedFrame, Option.ite_none_right_eq_some, Option.some.injEq] at hf
    obtain ⟨⟨hlt, hv, _⟩, rfl⟩ := hf
    obtain ⟨pg, hpg⟩ := h.below ⟨va, hlt, rfl⟩ hv
    have hnext := pteNext_of_userFrame hpg.frame
    rw [pteNext, if_pos hv, Option.some.injEq] at hnext
    exact ⟨hlt, hnext ▸ hpg.frame⟩
  refine ⟨(hs.tables.page root (isTable_root ..)).1.aligned, fun va va' f hf hf' => ?_, fun va f hf => ⟨?_, ?_⟩, fun h0 => ?_⟩
  · obtain ⟨hlt, hu⟩ := huser va f hf
    obtain ⟨hlt', hu'⟩ := huser va' f hf'
    have hvpn := hs.frame_inj hu hu'
    rw [vpn_eq_iff] at hvpn
    unfold kernelBase at hlt hlt'
    omega
  · exact (hs.page f (inSpace_of_frame (huser va f hf).2)).1.ne_zero
  · exact hs.frame_not_table (huser va f hf).2
  · exact (hs.tables.page 0 h0).1.ne_zero rfl

/-- So is the table of every process. -/
theorem Kernel.Valid.framesApart {k : Kernel} {F : List Nat} {i : Fin procsMax} (hv : k.Valid L F) (hl : k.Live i) :
    FramesApart k.phys.mem (k.procs i).pageTable :=
  ((hv.proc i hl).map (hv.full i hl)).framesApart ((hv.proc i hl).spaceOk (hv.full i hl))

/-! ## Small tables -/

instance onePage.neZero : NeZero 512 := ⟨by decide⟩

/-- A root, a table and a table of leaves, with the one entry `leaf` for page 0. -/
def onePage (leaf : Nat) : Phys where
  mem := setPte (setPte (setPte (fun _ => 0) 0x1000 0 (pa2pte 0x2000 pteV)) 0x2000 0 (pa2pte 0x3000 pteV)) 0x3000 0 leaf
  freeList := 0
  nextPaddr := 0
  gFreePages := 0
  allocTable := fun _ => {}
  allocTableCount := 0

section OnePage

variable {leaf pg f : Nat} (hlt : leaf < 2 ^ 64)
include hlt

theorem onePage_pteAt {j : Fin 512} :
    pteAt (onePage leaf).mem 0x1000 j = (if j = 0 then pa2pte 0x2000 pteV else 0) ∧
    pteAt (onePage leaf).mem 0x2000 j = (if j = 0 then pa2pte 0x3000 pteV else 0) ∧
    pteAt (onePage leaf).mem 0x3000 j = (if j = 0 then leaf else 0) := by
  unfold onePage
  dsimp only
  by_cases hj : j = 0
  · subst hj
    simp only [if_true]
    rw [pteAt_setPte_self hlt, pteAt_setPte_other (by decide) (by decide) (by decide),
      pteAt_setPte_other (by decide) (by decide) (by decide), pteAt_setPte_self (by decide),
      pteAt_setPte_other (by decide) (by decide) (by decide), pteAt_setPte_self (by decide)]
    exact ⟨rfl, rfl, rfl⟩
  · simp only [if_neg hj]
    refine ⟨?_, ?_, ?_⟩ <;>
      rw [pteAt_setPte_other (by decide) (by decide) fun _ => hj, pteAt_setPte_other (by decide) (by decide) fun _ => hj,
        pteAt_setPte_other (by decide) (by decide) fun _ => hj] <;> rfl

theorem onePage_tableAt {i j : Fin 512} :
    tableAt (onePage leaf).mem 0x1000 [i, j] = if i = 0 ∧ j = 0 then some 0x3000 else none := by
  rw [tableAt_two, (onePage_pteAt hlt).1]
  by_cases hi : i = 0
  · rw [if_pos hi, show pteNext (pa2pte 0x2000 pteV) = some 0x2000 from rfl, Option.bind_some, (onePage_pteAt hlt).2.1]
    by_cases hj : j = 0
    · rw [if_pos hj, if_pos ⟨hi, hj⟩]
      rfl
    · rw [if_neg hj, if_neg fun h => hj h.2]
      rfl
  · rw [if_neg hi, if_neg fun h => hi h.1]
    rfl

theorem onePage_leafAt {v : Vpn} : leafAt (onePage leaf).mem 0x1000 v = if v = (0, 0, 0) then leaf else 0 := by
  obtain ⟨i, j, k⟩ := v
  by_cases hij : i = 0 ∧ j = 0
  · rw [leafAt_of_table (t := 0x3000) (by rw [onePage_tableAt hlt, if_pos hij]), (onePage_pteAt hlt).2.2]
    simp [hij]
  · rw [leafAt_of_none (by rw [onePage_tableAt hlt, if_neg hij]), if_neg (by simp only [Prod.mk.injEq]; tauto)]

/-- The one user page is page 0. -/
theorem onePage_mapped (h : mappedFrame (onePage leaf).mem 0x1000 va = some f) : va / 4096 = 0 ∧ f = pte2pa leaf := by
  unfold mappedFrame at h
  rw [onePage_leafAt hlt] at h
  by_cases hv : vpn va = (0, 0, 0)
  · have hv0 : vpn va = vpn 0 := hv
    rw [vpn_eq_iff] at hv0
    rw [if_pos hv, Option.ite_none_right_eq_some] at h
    obtain ⟨⟨hk, _⟩, he⟩ := h
    unfold kernelBase at hk
    exact ⟨by omega, (Option.some.inj he).symm⟩
  · rw [if_neg hv, if_neg (by simp [pteHas])] at h
    cases h

theorem onePage_distinct : FramesDistinct (onePage leaf).mem 0x1000 := fun _ _ _ h h' =>
  (onePage_mapped hlt h).1.trans (onePage_mapped hlt h').1.symm

theorem onePage_isTable (h : IsTable (onePage leaf).mem 0x1000 pg) : pg = 0x1000 ∨ pg = 0x2000 ∨ pg = 0x3000 := by
  obtain ⟨q, hq⟩ := h
  have hlen := Radix.held_length hq
  rcases q with _ | ⟨i, _ | ⟨j, q⟩⟩
  · rw [tableAt, Radix.held_nil, Option.some.injEq] at hq
    exact .inl hq.symm
  · rw [tableAt, Radix.held_cons, (onePage_pteAt hlt).1] at hq
    by_cases hi : i = 0
    · rw [if_pos hi] at hq
      exact .inr (.inl (Option.some.inj hq).symm)
    · rw [if_neg hi] at hq
      cases hq
  · obtain rfl : q = [] := List.length_eq_zero_iff.mp (by simp only [List.length_cons] at hlen; omega)
    rw [onePage_tableAt hlt] at hq
    split at hq
    · exact .inr (.inr (Option.some.inj hq).symm)
    · cases hq

theorem onePage_apart (h0 : pte2pa leaf ≠ 0) (h : pte2pa leaf ≠ 0x1000 ∧ pte2pa leaf ≠ 0x2000 ∧ pte2pa leaf ≠ 0x3000) :
    FramesApart (onePage leaf).mem 0x1000 where
  aligned := rfl
  distinct := onePage_distinct hlt
  frame va f hf := by
    obtain ⟨_, rfl⟩ := onePage_mapped hlt hf
    refine ⟨h0, fun ht => ?_⟩
    have := onePage_isTable hlt ht
    omega
  table ht := by
    have := onePage_isTable hlt ht
    omega

theorem onePage_source (h : ∀ j < len, pageOf ((src + j) % 2 ^ 64) ≠ pte2pa leaf) :
    SourceApart (onePage leaf).mem 0x1000 src len := fun j hj va f hf => by
  obtain ⟨_, rfl⟩ := onePage_mapped hlt hf
  exact h j hj

end OnePage

end RiscvOs
