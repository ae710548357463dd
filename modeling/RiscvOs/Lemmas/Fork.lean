import RiscvOs.Lemmas.Calls

/-!
# `sys_fork`

The child gets a trap frame and an address space of fresh pages. The pages of its parent keep their
contents, apart from the result of the call in the parent's trap frame.
-/

namespace RiscvOs

open ByteMem Outcome Kernel

variable {L : Layout} {k k' : Kernel} {F F' F₀ F₁ : List Nat} {i c : Fin procsMax} {m : Mem}
  {s s' s₁ t : Phys} {pg tf tf' root x v o : Nat} {ret : SysRet} {p : Proc}

/-! ## Words of a trap frame -/

theorem tfWord_setTfWord_self (j : Nat) : tfWord (setTfWord m tf j v) tf j = v % 2 ^ 64 :=
  load64_store64 m _ v

theorem tfWord_setTfWord_ne {j l : Nat} (h : j ≠ l) : tfWord (setTfWord m tf l v) tf j = tfWord m tf j :=
  load64_store64_outside (by omega)

theorem tfWord_setTfWord_apart {j l : Nat} (h : tf + 256 ≤ tf' ∨ tf' + 256 ≤ tf) (hj : j < 32) (hl : l < 32) :
    tfWord (setTfWord m tf' l v) tf j = tfWord m tf j :=
  load64_store64_outside (by omega)

/-- The words of a copy. -/
theorem tfWord_memcpy {j : Nat} (hj : j < 32) : tfWord (memcpy m tf tf' frameSize) tf j = tfWord m tf' j := by
  refine load64_eq fun x hx => ?_
  rw [memcpy_inside (by omega) (by unfold frameSize; omega)]
  congr 1
  omega

theorem tfWord_memcpy_apart {j : Nat} (h : tf + 256 ≤ tf' ∨ tf' + 256 ≤ tf) (hj : j < 32) :
    tfWord (memcpy m tf' x frameSize) tf j = tfWord m tf j :=
  load64_write_outside (by unfold frameSize; omega)

theorem tfWord_lt (m : Mem) (tf j : Nat) : tfWord m tf j < 2 ^ 64 := load64_lt _ _

/-- The words of both trap frames after `sys_fork` has made the child's. -/
structure FrameCopy (m : Mem) (parentTf childTf pid : Nat) (m' : Mem) : Prop where
  child : ∀ j < 32, tfWord m' childTf j =
    if j = tfA0 then 0 else if j = tfEpc then (tfWord m parentTf tfEpc + 4) % 2 ^ 64
    else tfWord m parentTf j
  parent : ∀ j < 32, tfWord m' parentTf j = if j = tfA0 then pid else tfWord m parentTf j

theorem FrameCopy.congr {parentTf childTf pid : Nat} {m₀ m' m'' : Mem} (h : FrameCopy m parentTf childTf pid m')
    (h0 : ∀ j < 32, tfWord m parentTf j = tfWord m₀ parentTf j)
    (hc : ∀ j < 32, tfWord m'' childTf j = tfWord m' childTf j)
    (hp : ∀ j < 32, tfWord m'' parentTf j = tfWord m' parentTf j) : FrameCopy m₀ parentTf childTf pid m'' := by
  constructor
  · intro j hj
    rw [hc j hj, h.child j hj, h0 _ (by decide), h0 j hj]
  · intro j hj
    rw [hp j hj, h.parent j hj, h0 j hj]

theorem tfWord_congr {m' : Mem} (h : ∀ a, tf ≤ a → a < tf + frameSize → m' a = m a) {j : Nat} (hj : j < 32) :
    tfWord m' tf j = tfWord m tf j :=
  load64_congr fun x h1 h2 => h x (by omega) (by unfold frameSize; omega)

theorem forkFrames_copy {pid : Nat} (h : tf + 256 ≤ tf' ∨ tf' + 256 ≤ tf) (hp : pid < 2 ^ 64) :
    FrameCopy m tf tf' pid (forkFrames m tf tf' pid) := by
  have h' : tf' + 256 ≤ tf ∨ tf + 256 ≤ tf' := h.symm
  have hsp := tfWord_lt m tf tfSp
  constructor
  · intro j hj
    unfold forkFrames
    by_cases he : j = tfEpc
    · subst he
      rw [tfWord_setTfWord_self, if_neg (by decide), if_pos rfl,
        tfWord_setTfWord_apart h (by decide) (by decide), tfWord_setTfWord_ne (by decide),
        tfWord_setTfWord_apart h (by decide) (by decide), tfWord_memcpy_apart h (by decide)]
      omega
    · rw [tfWord_setTfWord_ne he, if_neg he]
      by_cases hs : j = tfSp
      · subst hs
        rw [tfWord_setTfWord_self, if_neg (by decide), tfWord_setTfWord_ne (by decide),
          tfWord_setTfWord_apart h (by decide) (by decide), tfWord_memcpy_apart h (by decide)]
        exact Nat.mod_eq_of_lt hsp
      · rw [tfWord_setTfWord_ne hs, tfWord_setTfWord_apart h' hj (by decide)]
        by_cases ha : j = tfA0
        · subst ha
          rw [tfWord_setTfWord_self, if_pos rfl, Nat.zero_mod]
        · rw [tfWord_setTfWord_ne ha, if_neg ha, tfWord_memcpy hj]
  · intro j hj
    unfold forkFrames
    rw [tfWord_setTfWord_apart h hj (by decide), tfWord_setTfWord_apart h hj (by decide)]
    by_cases ha : j = tfA0
    · subst ha
      rw [tfWord_setTfWord_self, if_pos rfl, Nat.mod_eq_of_lt hp]
    · rw [tfWord_setTfWord_ne ha, if_neg ha, tfWord_setTfWord_apart h hj (by decide),
        tfWord_memcpy_apart h hj]

/-- Outside the two frames nothing is written. -/
theorem forkFrames_outside {a pid : Nat} (h : ¬(tf ≤ a ∧ a < tf + frameSize))
    (h' : ¬(tf' ≤ a ∧ a < tf' + frameSize)) : forkFrames m tf tf' pid a = m a := by
  have hset : ∀ {m : Mem} {b l w : Nat}, l < 32 → ¬(b ≤ a ∧ a < b + frameSize) → setTfWord m b l w a = m a := by
    intro m b l w hl hb
    exact store64_outside (by unfold frameSize at hb; omega)
  unfold forkFrames
  rw [hset (by decide) h', hset (by decide) h', hset (by decide) h, hset (by decide) h', memcpy_outside h']

/-! ## The child -/

theorem freeSlot_unused (h : k.freeSlot = some c) : ¬k.Live c := by
  have := @List.find?_some _ (fun i => (k.procs i).state == .unused) _ _ h
  simpa [Live] using this

namespace Kernel

/-- The pages that `sys_fork` copies: those of the parent below the end of its heap and its stack. -/
def CopyPage (k : Kernel) : Vpn → Prop :=
  loopPages (forkSource (k.procs k.cur).pageTable k.phys.mem) userBase
    (Phys.pagesUpTo userBase (max (k.procs k.cur).heapEnd (k.procs k.cur).userStackTop))

/-- The record of the child. -/
def forkChild (k : Kernel) (c : Fin procsMax) (tf root : Nat) : Proc :=
  { pid := c + 1
    tf := tf, pageTable := root, state := .runnable, heapEnd := (k.procs k.cur).heapEnd
    userStackTop := (k.procs k.cur).userStackTop, entryPoint := (k.procs k.cur).entryPoint
    parent := some k.cur, parentPid := (k.procs k.cur).pid
    name := (k.procs k.cur).name.take (procNameMaxLen - 1) }

/-- What a successful `sys_fork` does. -/
structure Forked (L : Layout) (k : Kernel) (F : List Nat) (c : Fin procsMax) (tf root : Nat) (k' : Kernel)
    (F' : List Nat) : Prop where
  slot : k.freeSlot = some c
  state : k' = { k with phys := k'.phys, processCount := k.processCount + 1 }.setProc c
    (k.forkChild c tf root)
  grows : Grows L k.owner k.phys F k'.phys F' (TfPages L k k.cur)
  tf_avail : Avail L k.phys F tf
  tf_taken : ¬Avail L k'.phys F' tf
  space : SpaceOk L k'.phys F' root
  map : SpaceMap L k'.phys.mem root
  new : ∀ pg, InSpace k'.phys.mem root pg → Avail L k.phys F pg ∧ pg ≠ tf
  leaf : ∀ v, k.CopyPage v → CodeLeaf (leafAt k'.phys.mem root v)
  rest : ∀ v, ¬k.CopyPage v → userFrame (leafAt k'.phys.mem root v) = none
  copy : ∀ v pg fr x, k.CopyPage v → userFrame (leafAt k'.phys.mem root v) = some pg →
    userFrame (leafAt k.phys.mem (k.procs k.cur).pageTable v) = some fr → x < 4096 →
    k'.phys.mem (pg + x) = k.phys.mem (fr + x)
  frames : FrameCopy k.phys.mem (k.procs k.cur).tf tf (c + 1) k'.phys.mem

end Kernel

/-- The pages of a live process do not change while pages are only taken. -/
theorem Kernel.Inv.space_grows (hk : k.Inv L F) (hl : k.Live i) (hpt : (k.procs i).pageTable ≠ 0)
    (hg : Grows L o k.phys F t F' (TfPages L k c)) {a : Nat}
    (ha : InSpace k.phys.mem (k.procs i).pageTable (pageOf a)) : t.mem a = k.phys.mem a :=
  hg.mem a (((hk.proc i hl).spaceOk hpt).page _ ha).2 fun hw => (hk.tfPages hw).2 i hl hpt ha

theorem Kernel.Inv.leafAt_grows (hk : k.Inv L F) (hl : k.Live i) (hpt : (k.procs i).pageTable ≠ 0)
    (hg : Grows L o k.phys F t F' (TfPages L k c)) :
    leafAt t.mem (k.procs i).pageTable = leafAt k.phys.mem (k.procs i).pageTable :=
  leafAt_congr (fun _ ha => hk.space_grows hl hpt hg ha.inSpace)
    fun _ => ((hk.proc i hl).spaceOk hpt).tables.aligned

theorem Kernel.Inv.frame_grows (hk : k.Inv L F) (hl : k.Live i) (hpt : (k.procs i).pageTable ≠ 0)
    (hg : Grows L o k.phys F t F' (TfPages L k c)) {v : Vpn} {fr x : Nat}
    (hf : userFrame (leafAt k.phys.mem (k.procs i).pageTable v) = some fr) (hx : x < 4096) :
    t.mem (fr + x) = k.phys.mem (fr + x) := by
  have hp := ((hk.proc i hl).spaceOk hpt).page fr (inSpace_of_frame hf)
  have ho : pageOf (fr + x) = fr :=
    (pageOf_eq_iff hp.1.aligned).mpr ⟨Nat.le_add_right _ _, Nat.add_lt_add_left hx _⟩
  refine hk.space_grows hl hpt hg ?_
  rw [ho]
  exact inSpace_of_frame hf

theorem IsPage.frame_apart {pa : Nat} (h : IsPage L pg) (hp : IsPage L pa) (hne : pg ≠ pa) :
    pg + 256 ≤ pa ∨ pa + 256 ≤ pg := by
  have := h.aligned
  have := hp.aligned
  omega

/-- The trap frame of a process lies apart from an available page. -/
theorem ProcOk.tf_apart (h : ProcOk L s F i p) (hs : AllocOk L s F) (hav : Avail L s F tf) :
    p.tf + 256 ≤ tf ∨ tf + 256 ≤ p.tf := by
  have hp := hs.isPage hav
  rcases h.tf_cases with he | ⟨hh, hpt⟩
  · have h1 := tfStackFrame_lt L i
    have h2 := hp.ge
    rw [he]
    unfold frameSize at h1
    omega
  · exact hpt.frame_apart hp fun he => (h.page _ _ hh).2 (he ▸ hav)

/-- The memory of the child's trap frame and the result in its parent's. -/
theorem forkFrames_grows (pid : Nat) (hk : k.Inv L F) (hl : k.Live i)
    (hg : Grows L o k.phys F s F₁ (TfPages L k i)) (hav : Avail L k.phys F tf) (hna : ¬Avail L s F₁ tf) :
    Grows L o k.phys F { s with mem := forkFrames s.mem (k.procs i).tf tf pid } F₁ (TfPages L k i) := by
  have hp := hk.ok.isPage hav
  have hw : Grows L o s F₁ { s with mem := forkFrames s.mem (k.procs i).tf tf pid } F₁
      fun pg => TfPages L k i pg ∨ pg = tf := by
    refine .write hg.ok hg.track (fun a ha => ?_) fun pg hpg => ?_
    · refine forkFrames_outside (fun h => ha (.inl ((hk.proc i hl).tf_page hl h.1 h.2))) fun h => ha (.inr ?_)
      exact (pageOf_eq_iff hp.aligned).mpr ⟨h.1, by unfold frameSize at h; omega⟩
    · rcases hpg with hpg | rfl
      · exact fun h => (hk.tfPages hpg).1 (hg.avail _ h)
      · exact hna
  refine hg.trans hw fun pg hpg => ?_
  rcases hpg with hpg | rfl
  · exact .inl hpg
  · exact .inr hav

/-- The source of a page is the frame of the parent. -/
theorem forkSource_eq_some {table n va x : Nat} (h : forkSource table m va = some (x, n)) :
    n = 4096 ∧ pteNext (leafAt m table (vpn va)) = some x := by
  unfold forkSource at h
  rw [walkPage_eq] at h
  split at h
  · cases h
  · rename_i hne
    simp only [Option.some.injEq, Prod.mk.injEq] at h
    obtain ⟨rfl, rfl⟩ := h
    refine ⟨rfl, ?_⟩
    cases hq : pteNext (leafAt m table (vpn va)) with
    | none => simp [hq] at hne
    | some y => rfl

theorem forkSource_congr {table : Nat} {m m' : Mem} (h : leafAt m' table = leafAt m table) (va : Nat) :
    forkSource table m' va = forkSource table m va := by
  unfold forkSource
  rw [walkPage_eq, walkPage_eq, h]

theorem pteNext_of_userFrame {e : Nat} (h : userFrame e = some pg) : pteNext e = some pg := by
  unfold userFrame at h
  unfold pteNext
  cases hv : pteHas e pteV with
  | false => simp [hv] at h
  | true =>
      cases hu : pteHas e pteU with
      | false => simp [hv, hu] at h
      | true => simpa [hv, hu] using h

/-- The address space of the child. -/
theorem forkSpace_spec (hk : k.Inv L F) (hl : k.Live k.cur) (hpt : (k.procs k.cur).pageTable ≠ 0)
    (hg : Grows L o k.phys F s F₁ (TfPages L k k.cur)) {s₁ s₂ s₃ : Phys}
    (h1 : s.allocPages L o 1 = .ok (root, s₁))
    (h2 : s₁.mapRange L o root kernelBase kernelBase (pteV ||| pteRWX) (identityPages L) = .ok s₂)
    (h3 : s₂.mapLoop L o root (pteV ||| pteU ||| pteRWX) (forkSource (k.procs k.cur).pageTable) userBase
      (Phys.pagesUpTo userBase (max (k.procs k.cur).heapEnd (k.procs k.cur).userStackTop)) = .ok s₃) :
    ∃ F', NewSpace L o s F₁ root s₃ F' ∧
      (∀ v, k.CopyPage v → CodeLeaf (leafAt s₃.mem root v)) ∧
      (∀ v, ¬k.CopyPage v → userFrame (leafAt s₃.mem root v) = none) ∧
      ∀ v pg fr x, k.CopyPage v → userFrame (leafAt s₃.mem root v) = some pg →
        userFrame (leafAt k.phys.mem (k.procs k.cur).pageTable v) = some fr → x < 4096 →
        s₃.mem (pg + x) = k.phys.mem (fr + x) := by
  obtain ⟨F₂, hb⟩ := allocPages_one hg.ok hg.track h1
  obtain ⟨F₃, hn, _, hnone⟩ := NewSpace.identity hb hg.ok h2
  have hgrow : ∀ t Ft, Grows L o s₂ F₃ t Ft (IsTable s₂.mem root) →
      Grows L o k.phys F t Ft (TfPages L k k.cur) := fun t Ft ht =>
    (hg.trans hn.grows fun _ h => h.elim).trans ht fun pg hpg => .inr (hg.avail _ (hn.new pg hpg.inSpace))
  have he := Extend.refl (o := o)
    (C := fun v x b => ∀ fr, userFrame (leafAt k.phys.mem (k.procs k.cur).pageTable v) = some fr →
      b = k.phys.mem (fr + x)) hn.grows.ok hn.grows.track hn.space
  obtain ⟨F', he, hnew⟩ := he.mapLoop (by decide) (by decide) (by decide)
    (f := forkSource (k.procs k.cur).pageTable k.phys.mem)
    (fun t Ft ht i _ => forkSource_congr (hk.leafAt_grows hl hpt (hgrow t Ft ht)) _)
    (fun t Ft ht i _ a n ha => by
      obtain ⟨rfl, hx⟩ := forkSource_eq_some ha
      refine ⟨Nat.le_refl _, fun x hx' fr hfr => ?_⟩
      rw [pteNext_of_userFrame hfr, Option.some.injEq] at hx
      rw [if_pos hx', ← hx]
      exact hk.frame_grows hl hpt (hgrow t Ft ht) hfr hx') h3
  have hS : ∀ v, (False ∨ loopPages (forkSource (k.procs k.cur).pageTable k.phys.mem) userBase
      (Phys.pagesUpTo userBase (max (k.procs k.cur).heapEnd (k.procs k.cur).userStackTop)) v) ↔
      k.CopyPage v := fun v => ⟨fun h => h.resolve_left id, .inr⟩
  replace he := he.pages hS
  refine ⟨F', hn.extend he, fun v hv => ?_, fun v hv => ?_, fun v pg fr x hv hpg hfr hx => ?_⟩
  · obtain ⟨pg, hl, _⟩ := he.leaf v hv
    refine ⟨⟨pg, hl⟩, ?_⟩
    rw [(hnew.flagged v hv).user (by decide) (by decide)]
    rfl
  · rw [he.same v hv]
    exact hnone v
  · exact he.fill v pg x hv hpg hx fr hfr

theorem Kernel.sysFork_full (h : k.freeSlot = none) : k.sysFork L = .ok (.value (neg64 1), k) := by
  simp only [sysFork, allocFreeProc, h, Option.map_none]

/-- Memory after `alloc_free_proc` has cleared the kernel stack of the slot. -/
def Kernel.forkStack (L : Layout) (k : Kernel) (c : Fin procsMax) : Phys :=
  { k.phys with mem := memset k.phys.mem (L.procAddr c + tfStackStart) 0 (tfStackEnd - tfStackStart) }

theorem Kernel.sysFork_eq (hc : k.freeSlot = some c) (hl : k.Live k.cur) :
    k.sysFork L = (do
      let (tf, s) ← (k.forkStack L c).allocPages L k.owner 1
      let s := { s with mem := forkFrames s.mem (k.procs k.cur).tf tf (c + 1) }
      let (root, s) ← s.allocPages L k.owner 1
      let s ← s.mapRange L k.owner root kernelBase kernelBase (pteV ||| pteRWX) (identityPages L)
      let s ← s.mapLoop L k.owner root (pteV ||| pteU ||| pteRWX) (forkSource (k.procs k.cur).pageTable)
        userBase (Phys.pagesUpTo userBase (max (k.procs k.cur).heapEnd (k.procs k.cur).userStackTop))
      .ok (.value (c + 1), { k with phys := s, processCount := k.processCount + 1 }.setProc c
        (k.forkChild c tf root))) := by
  have hne : k.cur ≠ c := fun he => freeSlot_unused hc (he ▸ hl)
  have hcur : Function.update k.procs c { pid := c + 1 } k.cur = k.procs k.cur :=
    Function.update_of_ne hne _ _
  have howner : (k.currentProc.map fun i => (Function.update k.procs c { pid := c + 1 } i).pid) =
      k.currentProc.map fun i => (k.procs i).pid := by
    cases hp : k.currentProc with
    | none => rfl
    | some i =>
        have hi : i ≠ c := by
          rw [← cur_eq hp]
          exact hne
        rw [Option.map_some, Option.map_some, Function.update_of_ne hi]
  unfold sysFork allocFreeProc
  rw [hc]
  simp only [Option.map_some, setProc, owner, cur, Function.update_self, Function.update_idem]
  simp only [cur] at hcur
  rw [howner, hcur]
  rfl

/-- The trap frame of a process on its kernel stack lies outside the other kernel stacks. -/
theorem tfStackFrame_apart (hne : i ≠ c) {a : Nat} (ha : L.tfStackFrame i ≤ a)
    (ha' : a < L.tfStackFrame i + frameSize) :
    ¬(L.procAddr c + tfStackStart ≤ a ∧ a < L.procAddr c + tfStackStart + (tfStackEnd - tfStackStart)) := by
  have hv : (i : Nat) ≠ c := fun he => hne (Fin.ext he)
  simp only [Layout.tfStackFrame, Layout.tfTop, Layout.procAddr, procSize, tfStackStart, tfStackEnd,
    frameSize] at *
  omega

/-- Clearing the kernel stack of a free slot spares the trap frames of the processes. -/
theorem Kernel.forkStack_tf (hp : ProcOk L k.phys F i (k.procs i)) (hne : i ≠ c) {a : Nat}
    (ha : (k.procs i).tf ≤ a) (ha' : a < (k.procs i).tf + frameSize) :
    (k.forkStack L c).mem a = k.phys.mem a := by
  refine memset_outside ?_
  rcases hp.tf_cases with he | ⟨_, hpg⟩
  · rw [he] at ha ha'
    exact tfStackFrame_apart hne ha ha'
  · have h1 := hpg.ge
    have h2 := L.tfTop_le c
    simp only [Layout.tfTop, tfStackStart, tfStackEnd] at *
    omega

theorem Kernel.forkStack_grows (hk : k.Inv L F) :
    Grows L o k.phys F (k.forkStack L c) F (TfPages L k i) := by
  refine .write hk.ok hk.track (fun a ha => memset_outside fun hx => ha (.inl (pageOf_lt ?_)))
    fun pg hpg => (hk.tfPages hpg).1
  have := L.tfTop_le c
  simp only [Layout.tfTop, tfStackStart, tfStackEnd] at *
  omega

/-- `sys_fork` fails without a free slot, and else makes a child. -/
theorem Kernel.sysFork_spec (hk : k.Inv L F) (hl : k.Live k.cur) (hpt : (k.procs k.cur).pageTable ≠ 0)
    (h : k.sysFork L = .ok (ret, k')) :
    k.freeSlot = none ∧ ret = .value (neg64 1) ∧ k' = k ∨
      ∃ (c : Fin procsMax) (tf root : Nat) (F' : List Nat), ret = .value (c + 1) ∧
        Forked L k F c tf root k' F' := by
  cases hc : k.freeSlot with
  | none =>
      rw [sysFork_full hc] at h
      cases h
      exact .inl ⟨rfl, rfl, rfl⟩
  | some c =>
      right
      have hne : k.cur ≠ c := fun he => freeSlot_unused hc (he ▸ hl)
      rw [sysFork_eq hc hl] at h
      simp only [bind_eq_ok, Prod.exists, Except.ok.injEq, Prod.mk.injEq] at h
      obtain ⟨tf, s₁, h1, root, s₂, h2, s₃, h3, s₄, h4, rfl, rfl⟩ := h
      have hg0 : Grows L k.owner k.phys F (k.forkStack L c) F (TfPages L k k.cur) := forkStack_grows hk
      obtain ⟨F₁, hb⟩ := allocPages_one hg0.ok hg0.track h1
      have htf := hg0.avail _ hb.was_one
      have hg1 := hg0.trans hb.grows fun _ h => h.elim
      have hg2 := forkFrames_grows (c + 1) hk hl hg1 htf hb.not_avail
      obtain ⟨F', hn, hleaf, hrest, hcopy⟩ := forkSpace_spec hk hl hpt hg2 h2 h3 h4
      have hg := hg2.trans hn.grows fun _ h => h.elim
      refine ⟨c, tf, root, F', rfl, hc, rfl, hg, htf, fun hav => hb.not_avail (hn.grows.avail _ hav), hn.space,
        hn.map, fun pg hpg => ⟨hg2.avail _ (hn.new pg hpg), fun he => hb.not_avail (he ▸ hn.new pg hpg)⟩,
        hleaf, hrest, hcopy, ?_⟩
      have hpo := hk.proc _ hl
      have hpg := hk.ok.isPage htf
      have hapart := hpo.tf_apart hk.ok htf
      have hpid : (c : Nat) + 1 < 2 ^ 64 := by
        have := c.isLt
        unfold procsMax at this
        omega
      refine (forkFrames_copy (m := s₁.mem) hapart hpid).congr (fun j hj => ?_) (fun j hj => ?_)
        fun j hj => ?_
      · refine tfWord_congr (fun a h1 h2 => ?_) hj
        rw [hb.mem, memset_outside, forkStack_tf hpo hne h1 h2]
        rcases hpo.tf_cases with he | ⟨hh, hpt⟩
        · have := tfStackFrame_lt L k.cur
          have := hpg.ge
          rw [he] at h2
          omega
        · have h3 : (k.procs k.cur).tf ≠ tf := fun he => (hpo.page _ _ hh).2 (he ▸ htf)
          have h4 := hpt.aligned
          have h5 := hpg.aligned
          unfold frameSize at h2
          omega
      · refine tfWord_congr (fun a h1 h2 => hn.grows.mem a ?_ id) hj
        rw [(pageOf_eq_iff hpg.aligned).mpr ⟨h1, by unfold frameSize at h2; omega⟩]
        exact hb.not_avail
      · refine tfWord_congr (fun a h1 h2 => hn.grows.mem a ?_ id) hj
        exact fun hav => (hk.tfPages (hpo.tf_page hl h1 h2)).1 (hg2.avail _ hav)

/-- The child is a well-formed process, and all its pages were available. -/
theorem Kernel.Forked.inv {tf root : Nat} (h : Forked L k F c tf root k' F') (hk : k.Inv L F)
    (h0 : k.Live 0) (hl : k.Live k.cur) (hc : k.currentProc = some k.cur) : k'.Inv L F' := by
  have hne : k.cur ≠ c := fun he => freeSlot_unused h.slot (he ▸ hl)
  have hprocs : k'.procs = Function.update k.procs c (k.forkChild c tf root) := by
    rw [h.state]
    rfl
  have hroot : root ≠ 0 := (h.space.page root inSpace_root).1.ne_zero
  have htf := hk.ok.isPage h.tf_avail
  have htfne : tf ≠ L.tfStackFrame c := by
    have h1 := htf.ge
    have h2 := tfStackFrame_lt L c
    unfold frameSize at h2
    omega
  have hfrom : ∀ r pg, (k.forkChild c tf root).holds L k'.phys.mem c r = some pg → Avail L k.phys F pg := by
    intro r pg hr
    cases r with
    | space q => exact (h.new pg ⟨q, (Proc.holds_space_some hr).2⟩).1
    | tf =>
        obtain ⟨_, rfl⟩ := Proc.holds_tf_some hr
        exact h.tf_avail
    | image n => cases hr
  refine hk.grow h.grows rfl hprocs (fun pg hpg i _ hli hpti => (hk.tfPages_table hpg).2 i hli hpti) (fun _ => ?_)
    fun _ r pg hr => .inr (hfrom r pg hr)
  refine .of_parts (fun _ => ⟨h.space, h.map⟩) (fun _ => ⟨htf, h.tf_taken, fun _ hs => (h.new tf hs).2 rfl⟩)
    (fun himg => absurd rfl himg) (fun r pg e hr hu hp => ?_) ?_ ?_
  · refine .inr (.inr ⟨htfne, ?_⟩)
    rw [h.grows.owner_eq hk.track hu (hp ▸ hfrom r pg hr), owner_eq hc]
    rfl
  · have hc0 : c ≠ 0 := fun he => freeSlot_unused h.slot (he ▸ h0)
    rw [if_neg hc0]
    rfl
  · exact fun he => hne (Option.some.inj he)

theorem Kernel.Valid.sysFork (hk : k.Valid L F) (hl : k.Live k.cur) (hc : k.currentProc = some k.cur)
    (h : k.sysFork L = .ok (ret, k')) : ∃ F', k'.Valid L F' := by
  rcases sysFork_spec hk.toInv hl (hk.full _ hl) h with ⟨_, _, rfl⟩ | ⟨c, tf, root, F', _, hf⟩
  · exact ⟨F, hk⟩
  · have hprocs : k'.procs = Function.update k.procs c (k.forkChild c tf root) := by
      rw [hf.state]
      rfl
    refine ⟨F', hk.update (hf.inv hk.toInv hk.idle.1 hl hc) hprocs
      (fun _ => (hf.space.page root inSpace_root).1.ne_zero) (fun _ => hk.stack _ hl)
      (fun he => absurd hk.idle.1 (he ▸ freeSlot_unused hf.slot)) ?_⟩
    rw [hf.state]
    exact ⟨hk.globals.stackTop, hk.globals.stackBottom, hk.globals.heapStart, hk.globals.heapEnd⟩

end RiscvOs
