import RiscvOs.Lemmas.Maps

/-!
# What a call leaves alone

A call of one process leaves the other processes as they are: their records but for their states and their
inboxes, their trap frames and the pages of their address spaces. The zombie that `sys_wait` reaps is the
exception. This holds of calls that store to the memory of the user only, and that reap no process while
a child of it still lives in the pages that were charged to it.
-/

namespace RiscvOs

open ByteMem Outcome Kernel

variable {L : Layout} {k k' k'' : Kernel} {F F' : List Nat} {i c z : Fin procsMax} {m : Mem} {f : Frame}
  {s s' : Machine} {t : Trap} {fs : Initramfs} {ret : SysRet} {a pg : Nat} {input input' now : List UInt8}
  {call : Call}

/-! ## Kernel stacks -/

theorem stack_add (L : Layout) (i : Fin procsMax) :
    L.procAddr i + tfStackStart + (tfStackEnd - tfStackStart) = L.tfTop i := by
  unfold Layout.tfTop tfStackStart tfStackEnd
  omega

theorem stack_le_tfStackFrame (L : Layout) (i : Fin procsMax) : L.procAddr i + tfStackStart ≤ L.tfStackFrame i := by
  unfold Layout.tfStackFrame Layout.tfTop tfStackStart tfStackEnd frameSize
  omega

namespace Kernel

/-! ## The other processes -/

/-- Where the kernel may write for process `c` besides its pages: the page of its trap frame, its kernel stack
and the kernel stacks of the free slots. -/
def Scratch (L : Layout) (k : Kernel) (c : Fin procsMax) (a : Nat) : Prop :=
  k.Holds L c .tf (pageOf a) ∨
    ∃ j, (j = c ∨ ¬k.Live j) ∧ L.procAddr j + tfStackStart ≤ a ∧ a < L.tfTop j

/-- Process `i` after a step of another one. -/
structure Kept (k k' : Kernel) (i : Fin procsMax) : Prop where
  record : ∃ st msg, k'.procs i = { k.procs i with state := st, inbox := msg }
  live : k'.Live i
  frame : ∀ a, (k.procs i).tf ≤ a → a < (k.procs i).tf + frameSize → k'.phys.mem a = k.phys.mem a
  space : ∀ a, InSpace k.phys.mem (k.procs i).pageTable (pageOf a) → k'.phys.mem a = k.phys.mem a

namespace Kept

variable (h : Kept k k' i)
include h

theorem tf : (k'.procs i).tf = (k.procs i).tf := by
  obtain ⟨st, msg, hr⟩ := h.record
  rw [hr]

theorem pageTable : (k'.procs i).pageTable = (k.procs i).pageTable := by
  obtain ⟨st, msg, hr⟩ := h.record
  rw [hr]

theorem argc : (k'.procs i).argc = (k.procs i).argc := by
  obtain ⟨st, msg, hr⟩ := h.record
  rw [hr]

theorem argvPtr : (k'.procs i).argvPtr = (k.procs i).argvPtr := by
  obtain ⟨st, msg, hr⟩ := h.record
  rw [hr]

/-- The registers of the process are still in its trap frame. -/
theorem loadFrame : RiscvOs.loadFrame k'.phys.mem (k'.procs i).tf = RiscvOs.loadFrame k.phys.mem (k.procs i).tf := by
  rw [h.tf]
  exact loadFrame_congr h.frame

theorem trans (h' : Kept k' k'' i) (hp : ProcOk L k.phys F i (k.procs i)) (hpt : (k.procs i).pageTable ≠ 0) :
    Kept k k'' i := by
  refine ⟨?_, h'.live, fun a h1 h2 => ?_, fun a ha => ?_⟩
  · obtain ⟨st, msg, hr⟩ := h.record
    obtain ⟨st', msg', hr'⟩ := h'.record
    exact ⟨st', msg', by rw [hr', hr]⟩
  · rw [h'.frame a (by rwa [h.tf]) (by rwa [h.tf]), h.frame a h1 h2]
  · have hs : spaceAt k'.phys.mem (k.procs i).pageTable = spaceAt k.phys.mem (k.procs i).pageTable :=
      spaceAt_congr (fun a ha => h.space a ha.inSpace) fun pg => (hp.spaceOk hpt).tables.aligned
    rw [h'.space a (by rw [h.pageTable, InSpace, hs]; exact ha), h.space a ha]

end Kept

theorem Kept.refl (hl : k.Live i) : Kept k k i := ⟨⟨_, _, rfl⟩, hl, fun _ _ _ => rfl, fun _ _ => rfl⟩

/-- A step that leaves memory alone. -/
theorem Kept.of_record (hl : k'.Live i) (hr : ∃ st msg, k'.procs i = { k.procs i with state := st, inbox := msg })
    (hm : k'.phys.mem = k.phys.mem) : Kept k k' i :=
  ⟨hr, hl, fun _ _ _ => by rw [hm], fun _ _ => by rw [hm]⟩

theorem scratch_of_stack (h1 : L.tfStackFrame c ≤ a) (h2 : a < L.tfStackFrame c + frameSize) : Scratch L k c a :=
  .inr ⟨c, .inl rfl, Nat.le_trans (stack_le_tfStackFrame L c) h1, by rwa [← tfStackFrame_add]⟩

namespace Inv

variable (hk : k.Inv L F) (hi : i ≠ c) (hli : k.Live i)
include hk hli

/-- The trap frame of process `i` lies on its kernel stack, or in a page that it holds. -/
theorem frame_cases (h1 : (k.procs i).tf ≤ a) (h2 : a < (k.procs i).tf + frameSize) :
    L.tfStackFrame i ≤ a ∧ a < L.tfStackFrame i + frameSize ∨
      pageOf a = (k.procs i).tf ∧ k.Holds L i .tf (pageOf a) ∧ L.freeRam ≤ a := by
  rcases (hk.proc i hli).tf_cases with he | ⟨hh, hp⟩
  · rw [he] at h1 h2
    exact .inl ⟨h1, h2⟩
  · have ho : pageOf a = (k.procs i).tf :=
      (pageOf_eq_iff hp.aligned).mpr ⟨h1, by unfold frameSize at h2; omega⟩
    exact .inr ⟨ho, ⟨hli, by rw [ho]; exact hh⟩, Nat.le_trans hp.ge h1⟩

theorem scratch_of_frame (h1 : (k.procs i).tf ≤ a) (h2 : a < (k.procs i).tf + frameSize) : Scratch L k i a := by
  rcases hk.frame_cases hli h1 h2 with ⟨h3, h4⟩ | ⟨_, hh, _⟩
  · exact scratch_of_stack h3 h4
  · exact .inl hh

include hi

theorem frame_not_scratch (h1 : (k.procs i).tf ≤ a) (h2 : a < (k.procs i).tf + frameSize) :
    ¬Scratch L k c a := by
  have hstack : ∀ j, (j = c ∨ ¬k.Live j) → ¬(L.procAddr j + tfStackStart ≤ a ∧ a < L.tfTop j) := by
    rintro j hj ⟨h3, h4⟩
    have hij : i ≠ j := by
      rintro rfl
      exact hj.elim hi fun hn => hn hli
    rcases hk.frame_cases hli h1 h2 with ⟨h5, h6⟩ | ⟨_, _, h5⟩
    · refine tfStackFrame_apart hij h5 h6 ⟨h3, ?_⟩
      rw [stack_add]
      exact h4
    · have := L.tfTop_le j
      omega
  rintro (hh | ⟨j, hj, hx⟩)
  · rcases hk.frame_cases hli h1 h2 with ⟨_, h3⟩ | ⟨_, hh', _⟩
    · have := ((hk.proc c hh.1).page _ _ hh.2).1.ge
      have := pageOf_lt (Nat.lt_of_lt_of_le h3 (tfStackFrame_lt L i))
      omega
    · exact hi (hk.apart i c _ _ _ hh' hh)
  · exact hstack j hj hx

theorem frame_not_loose (h1 : (k.procs i).tf ≤ a) (h2 : a < (k.procs i).tf + frameSize) :
    ¬Loose L k F c (pageOf a) := by
  rcases hk.frame_cases hli h1 h2 with ⟨_, h3⟩ | ⟨_, hh, _⟩
  · have hlow := pageOf_lt (L := L) (Nat.lt_of_lt_of_le h3 (tfStackFrame_lt L i))
    rintro (hav | ⟨r, _, hr⟩)
    · have := (hk.ok.isPage hav).ge
      omega
    · have := ((hk.proc c hr.1).page r _ hr.2).1.ge
      omega
  · exact hk.not_loose hi hh

/-- A step that writes to loose pages and to the scratch memory of its process. -/
theorem kept (hpt : (k.procs i).pageTable ≠ 0) (hp : k'.procs i = k.procs i)
    (hm : ∀ a, ¬Scratch L k c a → ¬Loose L k F c (pageOf a) → k'.phys.mem a = k.phys.mem a) : Kept k k' i := by
  refine ⟨⟨_, _, hp⟩, by rwa [Live, hp], fun a h1 h2 => ?_, fun a ha => ?_⟩
  · exact hm a (hk.frame_not_scratch hi hli h1 h2) (hk.frame_not_loose hi hli h1 h2)
  · obtain ⟨q, hq⟩ := holds_space (L := L) hli hpt ha
    refine hm a ?_ (hk.not_loose hi hq)
    have hge := (((hk.proc i hli).spaceOk hpt).page _ ha).1.ge
    rintro (hh | ⟨j, _, _, h4⟩)
    · exact (hk.tfPages (.inr hh)).2 i hli hpt ha
    · have := pageOf_lt (Nat.lt_of_lt_of_le h4 (L.tfTop_le j))
      omega

end Inv

/-! ## Steps of the process that runs -/

theorem changeState_record (src dst : PState) (j : Fin procsMax) :
    ∃ st, (k.changeState i src dst).procs j = { k.procs j with state := st } := by
  unfold changeState
  split
  · by_cases hj : j = i
    · subst hj
      exact ⟨dst, setProc_procs_self⟩
    · exact ⟨_, setProc_procs_of_ne hj⟩
  · exact ⟨_, rfl⟩

theorem yield_record (L : Layout) (k : Kernel) (j : Fin procsMax) :
    ∃ st, (k.yield L).1.procs j = { k.procs j with state := st } := by
  obtain ⟨st₁, h1⟩ := changeState_record (k := k) (i := k.cur) .running .runnable j
  simp only [yield]
  split
  · exact ⟨st₁, h1⟩
  · obtain ⟨st₂, h2⟩ := changeState_record (k := k.changeState k.cur .running .runnable) (i := k.cur)
      .running .runnable j
    obtain ⟨st₃, h3⟩ := changeState_record
      (k := (k.changeState k.cur .running .runnable).changeState k.cur .running .runnable)
      (i := (k.changeState k.cur .running .runnable).pickNext) .runnable .running j
    exact ⟨st₃, h3.trans (by rw [h2, h1])⟩

theorem yield_kept (hl : k.Live i) : Kept k (k.yield L).1 i := by
  obtain ⟨st, hst⟩ := yield_record L k i
  exact .of_record ((yield_same L k i).live.mpr hl) ⟨st, _, hst⟩ (by rw [yield_phys])

namespace Running

variable (h : Running L k F c) (hi : i ≠ c) (hl : k.Live i)
include h hi hl

theorem kept (hp : k'.procs i = k.procs i)
    (hm : ∀ a, ¬Scratch L k c a → ¬Loose L k F c (pageOf a) → k'.phys.mem a = k.phys.mem a) : Kept k k' i :=
  h.toInv.kept hi hl (h.full i hl) hp hm

/-- The pages of process `c` are loose. -/
theorem kept_grows {o : Nat} {W : Nat → Prop} (hg : Grows L o k.phys F k'.phys F' W)
    (hW : ∀ pg, W pg → InSpace k.phys.mem (k.procs c).pageTable pg) (hp : k'.procs i = k.procs i) :
    Kept k k' i :=
  h.kept hi hl hp fun a _ ha => hg.mem a (fun hav => ha (.inl hav)) fun hw => by
    obtain ⟨q, hq⟩ := holds_space (L := L) h.live h.pageTable (hW _ hw)
    exact ha (.inr ⟨_, by simp, hq⟩)

theorem userWrites_kept (hw : UserWrites k c k') : Kept k k' i :=
  h.kept_grows hi hl (hw.grows (o := 0) h.toInv h.live h.pageTable) (fun _ hpg => hpg.inSpace)
    (by rw [hw.procs])

theorem enter_kept : Kept k (k.enter L c f) i := by
  refine h.kept hi hl rfl fun a hs _ => ?_
  have h1 : ¬(L.tfStackFrame c ≤ a ∧ a < L.tfStackFrame c + frameSize) := fun hx => hs (scratch_of_stack hx.1 hx.2)
  have h2 : ¬((k.procs c).tf ≤ a ∧ a < (k.procs c).tf + frameSize) := fun hx =>
    hs (h.toInv.scratch_of_frame h.live hx.1 hx.2)
  exact (memcpy_outside h2).trans (storeFrame_outside h1)

theorem setResult_kept (a0 : Nat) : Kept k (Machine.setResult L k c a0) i := by
  refine h.kept hi hl rfl fun a hs _ => store64_outside fun hx => hs (scratch_of_stack ?_ ?_)
  · omega
  · unfold tfA0 at hx
    unfold frameSize
    omega

theorem sysExit_kept (code : Nat) : Kept k (k.sysExit code) i := by
  have hp : (k.sysExit code).procs i = k.procs i := setProc_procs_of_ne (h.cur.symm ▸ hi)
  exact .of_record (by rwa [Live, hp]) ⟨_, _, hp⟩ rfl

theorem sysSbrk_kept {inc : Int} (hs : k.sysSbrk L inc = .ok (ret, k')) : Kept k k' i := by
  have hcur := h.cur
  have hlc : k.Live k.cur := hcur.symm ▸ h.live
  obtain ⟨_, F', hsb⟩ := sysSbrk_spec h.toInv hlc (h.full _ hlc) hs
  refine h.kept_grows hi hl hsb.extend.grows (fun pg hpg => ?_) ?_
  · rw [hcur] at hpg
    exact hpg.inSpace
  · rw [hsb.state, hcur]
    exact setProc_procs_of_ne hi

end Running

/-- Below free RAM `sys_fork` writes to the kernel stack of the child and to the trap frame of the caller. -/
theorem sysFork_low {j : Fin procsMax} (hk : k.Inv L F) (hl : k.Live k.cur)
    (hpt : (k.procs k.cur).pageTable ≠ 0) (hj : k.freeSlot = some j) (h : k.sysFork L = .ok (ret, k'))
    (ha : a < L.freeRam) (hs : ¬(L.procAddr j + tfStackStart ≤ a ∧ a < L.tfTop j))
    (hf : ¬((k.procs k.cur).tf ≤ a ∧ a < (k.procs k.cur).tf + frameSize)) : k'.phys.mem a = k.phys.mem a := by
  have hlow : ∀ {s : Phys} {F : List Nat}, AllocOk L s F → ¬Avail L s F (pageOf a) := fun hs hav => by
    have := (hs.isPage hav).ge
    have := pageOf_lt ha
    omega
  rw [sysFork_eq hj hl] at h
  simp only [bind_eq_ok, Prod.exists, Except.ok.injEq, Prod.mk.injEq] at h
  obtain ⟨tf, s₁, h1, root, s₂, h2, s₃, h3, s₄, h4, -, rfl⟩ := h
  have hg0 : Grows L k.owner k.phys F (k.forkStack L j) F (TfPages L k k.cur) := forkStack_grows hk
  obtain ⟨F₁, hb⟩ := allocPages_one hg0.ok hg0.track h1
  have htf := hg0.avail _ hb.was_one
  have hg1 := hg0.trans hb.grows fun _ h => h.elim
  have hg2 := forkFrames_grows (j + 1) hk hl hg1 htf hb.not_avail
  obtain ⟨F', hn, -⟩ := forkSpace_spec hk hl hpt hg2 h2 h3 h4
  have htf' : ¬(tf ≤ a ∧ a < tf + frameSize) := fun hx => by
    have := (hk.ok.isPage htf).ge
    omega
  calc s₄.mem a = forkFrames s₁.mem (k.procs k.cur).tf tf (j + 1) a := hn.grows.mem a (hlow hg2.ok) id
    _ = s₁.mem a := forkFrames_outside hf htf'
    _ = (k.forkStack L j).mem a := hb.grows.mem a (hlow hg0.ok) id
    _ = k.phys.mem a := memset_outside (by rwa [stack_add])

namespace Running

theorem sysFork_kept (h : Running L k F c) (hi : i ≠ c) (hl : k.Live i) (hs : k.sysFork L = .ok (ret, k')) :
    Kept k k' i := by
  have hcur := h.cur
  have hlc : k.Live k.cur := hcur.symm ▸ h.live
  rcases sysFork_spec h.toInv hlc (h.full _ hlc) hs with ⟨_, _, rfl⟩ | ⟨j, tf, root, F', _, hf⟩
  · exact .refl hl
  have hnj : ¬k.Live j := freeSlot_unused hf.slot
  have hij : i ≠ j := fun he => hnj (he ▸ hl)
  refine h.kept hi hl ?_ fun a hsc hlo => ?_
  · rw [hf.state]
    exact setProc_procs_of_ne hij
  have hframe : ¬((k.procs c).tf ≤ a ∧ a < (k.procs c).tf + frameSize) := fun hx =>
    hsc (h.toInv.scratch_of_frame h.live hx.1 hx.2)
  by_cases ha : a < L.freeRam
  · exact sysFork_low h.toInv hlc (h.full _ hlc) hf.slot hs ha (fun hx => hsc (.inr ⟨j, .inr hnj, hx⟩))
      (by rwa [hcur])
  refine hf.grows.mem a (fun hav => hlo (.inl hav)) ?_
  rw [hcur]
  rintro (hlow | hh)
  · have := L.freeRam_aligned
    unfold pageOf at hlow
    omega
  · exact hsc (.inl hh)

end Running

/-! ## Calls -/

theorem setInbox_kept {j : Fin procsMax} {msg : IpcMessage} (hl : k.Live i) : Kept k (k.setInbox j msg) i := by
  have hr : ∃ st msg', (k.setInbox j msg).procs i = { k.procs i with state := st, inbox := msg' } := by
    by_cases hij : i = j
    · subst hij
      exact ⟨_, _, setProc_procs_self⟩
    · exact ⟨_, _, setProc_procs_of_ne hij⟩
  exact .of_record ((setInbox_same j msg i).live.mpr hl) hr rfl

/-- What a step leaves: some process runs, `c` itself unless the step has left the kernel, and the other
processes are as they were if they are still there. -/
structure Served (L : Layout) (k : Kernel) (c : Fin procsMax) (ret : SysRet) (k' : Kernel) : Prop where
  running : ∃ F' c', Running L k' F' c' ∧ ∀ a0, ret = .value a0 → c' = c
  others : ∀ i, i ≠ c → k.Live i → k'.Live i → Kept k k' i

namespace Running

theorem served_of (hr : Running L k' F' c) (ho : ∀ i, i ≠ c → k.Live i → Kept k k' i) : Served L k c ret k' :=
  ⟨⟨F', c, hr, fun _ _ => rfl⟩, fun i hi hl _ => ho i hi hl⟩

variable (h : Running L k F c)
include h

theorem served_self : Served L k c ret k := h.served_of fun _ _ hl => .refl hl

/-- Before the step, one that keeps all other processes. -/
theorem served_after (hs : Served L k' c ret k'') (h1 : ∀ i, i ≠ c → k.Live i → Kept k k' i) :
    Served L k c ret k'' where
  running := hs.running
  others i hi hl hl' := by
    have hk := h1 i hi hl
    exact hk.trans (hs.others i hi hk.live hl') (h.proc i hl) (h.full i hl)

theorem userWrites_served (hw : UserWrites k c k') (hs : Served L k' c ret k'') : Served L k c ret k'' :=
  h.served_after hs fun _ hi hl => h.userWrites_kept hi hl hw

/-- A last `yield`. -/
theorem yield_served : Served L k c (if (k.yield L).2 then .switched else .value a) (k.yield L).1 := by
  have ho : ∀ i, i ≠ c → k.Live i → (k.yield L).1.Live i → Kept k (k.yield L).1 i := fun i _ hl _ => yield_kept hl
  rw [yield_switched]
  by_cases hs : k.table.Switches
  · rw [decide_eq_true hs]
    exact ⟨⟨F, _, h.yield_switch hs, fun _ he => by cases he⟩, ho⟩
  · exact ⟨⟨F, c, h.yield_stay hs, fun _ _ => rfl⟩, ho⟩

/-! ### Loops -/

theorem readLoop_served {buf j n : Nat} (hb : buf + j + n ≤ kernelBase)
    (hs : k.readLoop L buf j n input = .ok (ret, k', input')) : Served L k c ret k' := by
  induction n generalizing k j input with
  | zero =>
      simp only [readLoop, Except.ok.injEq, Prod.mk.injEq] at hs
      rw [← hs.2.1]
      exact h.served_self
  | succ n ih =>
      cases input with
      | nil => cases hs
      | cons b input =>
          simp only [readLoop, bind_eq_ok] at hs
          obtain ⟨k₁, h1, hs⟩ := hs
          have hw := storeU8_spec h.toInv h.live h.pageTable h.active (by omega) h1
          have hr := h.userWrites hw
          refine h.userWrites_served hw ?_
          split at hs
          · simp only [Except.ok.injEq, Prod.mk.injEq] at hs
            rw [← hs.2.1]
            exact hr.served_self
          · have hy := hr.yield_served (L := L) (a := 0)
            have hsw := yield_switched (k := k₁) (L := L)
            split at hs
            · rename_i k₂ hk
              simp only [Except.ok.injEq, Prod.mk.injEq] at hs
              rw [hk] at hy
              rw [← hs.1, ← hs.2.1]
              exact hy
            · rename_i k₂ hk
              rw [hk] at hsw
              have hstay := hr.yield_stay (of_decide_eq_false hsw.symm)
              rw [hk] at hstay
              refine hr.served_after (ih hstay (by omega) hs) fun i _ hl => ?_
              have hkept := yield_kept (L := L) hl
              rwa [hk] at hkept

/-- A store at a place that the kernel reaches through its identity map: it lies there, or in a page that the
user has mapped in its place. -/
theorem storeU8_identity {pa : Nat} {b : UInt8} (hpg : UserPage k.phys.mem (k.procs c).pageTable (pageOf pa))
    (hs : k.storeU8 L pa b = .ok k') : UserWrites k c k' := by
  obtain ⟨v, hv⟩ := hpg
  have hpage := (h.spaceOk.page _ (inSpace_of_frame hv)).1
  have hlt := hpage.lt
  have hend := L.freeRamEnd_lt
  unfold storeU8 at hs
  split at hs
  · rename_i pa' ht
    obtain ⟨_, hs⟩ := ite_error_eq_ok.mp hs
    simp only [Except.ok.injEq] at hs
    subst hs
    have hmod : pa % 2 ^ 64 = pa := Nat.mod_eq_of_lt (by unfold pageOf at hlt; omega)
    rw [h.active, hmod] at ht
    refine ⟨rfl, fun x hx => Function.update_of_ne (fun he => hx ?_) _ _⟩
    subst he
    unfold Phys.translate at ht
    rw [leafPte_eq] at ht
    simp only [Option.ite_none_right_eq_some, Bool.and_eq_true, Option.some.injEq] at ht
    obtain ⟨⟨⟨_, hvalid⟩, _⟩, rfl⟩ := ht
    rcases h.spaceMap _ hvalid with ⟨pg, hl⟩ | ⟨q, hq, hvq, he⟩
    · have hf := hl.frame
      have hp := (h.spaceOk.page pg (inSpace_of_frame hf)).1
      rw [pte2pa_of_userFrame hf, (pageOf_eq_iff hp.aligned).mpr ⟨by omega, by omega⟩]
      exact ⟨_, hf⟩
    · have hge := hq.ge
      have hqlt := hq.lt_39
      have halign := hq.aligned
      rw [vpn_eq_iff] at hvq
      have hpte : pte2pa (leafAt k.phys.mem (k.procs c).pageTable (vpn pa)) = q := by
        rw [he, identityEntry, pte2pa_pa2pte hq.aligned (by omega) (by decide)]
      have hpa : q + pa % 4096 = pa := by
        unfold pageOf at hlt
        omega
      rw [hpte, hpa]
      exact ⟨v, hv⟩
  · cases hs

/-- What `walkaddr` finds lies in a page of the user. -/
theorem walkaddr_userPage {o va pa : Nat} (hs : k.phys.walkaddr L o (k.procs c).pageTable va = .ok pa) (hpa : pa ≠ 0) :
    UserPage k.phys.mem (k.procs c).pageTable (pageOf pa) := by
  unfold Phys.walkaddr at hs
  split at hs
  · exact absurd (Except.ok.inj hs).symm hpa
  rename_i hva
  have h39 : va < 2 ^ 39 := by
    unfold kernelBase at hva
    omega
  have hzero : (Except.ok 0 : Except Halt Nat) ≠ .ok pa := fun he => hpa (Except.ok.inj he).symm
  cases htab : tableAt k.phys.mem (k.procs c).pageTable [px 2 va, px 1 va] with
  | none =>
      rw [walk_of_none h39 htab] at hs
      exact absurd hs hzero
  | some t =>
      have hleaf : leafAt k.phys.mem (k.procs c).pageTable (vpn va) = load64 k.phys.mem (t + 8 * px 0 va) :=
        leafAt_of_table htab
      rw [walk_of_table h39 htab, ok_bind] at hs
      dsimp only at hs
      rw [← hleaf] at hs
      split at hs
      · exact absurd hs hzero
      split at hs
      · exact absurd hs hzero
      rename_i hvalid
      split at hs
      · exact absurd hs hzero
      obtain ⟨pg, hl⟩ := h.spaceMap.below ⟨va, Nat.not_le.mp hva, rfl⟩ (by simpa using hvalid)
      have hf := hl.frame
      have hp := (h.spaceOk.page pg (inSpace_of_frame hf)).1
      have hand : va &&& 0xFFF = va % 4096 := Nat.and_two_pow_sub_one_eq_mod va 12
      have hlt := hp.lt
      have hend := L.freeRamEnd_lt
      rw [pte2pa_of_userFrame hf, hand, Except.ok.injEq, Nat.mod_eq_of_lt (by omega)] at hs
      rw [(pageOf_eq_iff hp.aligned).mpr ⟨by omega, by omega⟩]
      exact ⟨_, hf⟩

theorem copyToUser_served {va : Nat} {l : List UInt8} (hs : k.copyToUser L va l = .ok (ret, k')) :
    UserWrites k c k' := by
  induction l generalizing k va with
  | nil =>
      simp only [copyToUser, Except.ok.injEq, Prod.mk.injEq] at hs
      rw [← hs.2]
      exact .refl k c
  | cons b l ih =>
      simp only [copyToUser, bind_eq_ok] at hs
      obtain ⟨pa, hpa, hs⟩ := hs
      split at hs
      · simp only [Except.ok.injEq, Prod.mk.injEq] at hs
        rw [← hs.2]
        exact .refl k c
      · rename_i hne
        simp only [bind_eq_ok] at hs
        obtain ⟨k₁, h1, hs⟩ := hs
        rw [h.cur] at hpa
        have hw := h.storeU8_identity (h.walkaddr_userPage hpa hne) h1
        exact hw.trans (ih (h.userWrites hw) hs) h.toInv h.live h.pageTable

/-! ### Messages -/

theorem setInbox_served {j : Fin procsMax} {msg : IpcMessage} : Served L k c ret (k.setInbox j msg) :=
  (h.setInbox j msg).served_of fun _ _ hl => setInbox_kept hl

theorem sysIpcSend_served {destPid : Int} {buf size : Nat} (hs : k.sysIpcSend destPid buf size = .ok (ret, k')) :
    Served L k c ret k' := by
  unfold sysIpcSend at hs
  split at hs
  · simp only [Except.ok.injEq, Prod.mk.injEq] at hs
    exact hs.2 ▸ h.served_self
  split at hs
  · cases hs
  split at hs
  · simp only [Except.ok.injEq, Prod.mk.injEq] at hs
    exact hs.2 ▸ h.served_self
  split at hs
  · simp only [Except.ok.injEq, Prod.mk.injEq] at hs
    exact hs.2 ▸ h.served_self
  · simp only [bind_eq_ok, Except.ok.injEq, Prod.mk.injEq] at hs
    obtain ⟨bytes, _, _, rfl⟩ := hs
    exact h.setInbox_served

theorem storeSender_spec {senderPid sender : Nat} (hst : StatusOk senderPid)
    (hs : k.storeSender L senderPid sender = .ok k') : UserWrites k c k' := by
  unfold storeSender at hs
  split at hs
  · exact Except.ok.inj hs ▸ .refl k c
  · rename_i hne
    exact storeBytes_spec h.toInv h.live h.pageTable h.active (by simpa using hst.resolve_left hne) hs

theorem sysIpcRecv_served {buf maxSize senderPid : Nat} (hst : StatusOk senderPid)
    (hb : buf + min (k.procs c).inbox.size maxSize ≤ kernelBase)
    (hs : k.sysIpcRecv L buf maxSize senderPid = .ok (ret, k')) : Served L k c ret k' := by
  unfold sysIpcRecv at hs
  rw [h.cur] at hs
  dsimp only at hs
  split at hs
  · simp only [Except.ok.injEq, Prod.mk.injEq] at hs
    exact hs.2 ▸ h.served_self
  · simp only [bind_eq_ok, Except.ok.injEq, Prod.mk.injEq] at hs
    obtain ⟨k₁, h1, k₂, h2, _, rfl⟩ := hs
    have hw1 := storeBytes_spec h.toInv h.live h.pageTable h.active (by simpa [IpcMessage.copied] using hb) h1
    have hr1 := h.userWrites hw1
    have hw2 := hr1.storeSender_spec hst h2
    exact h.userWrites_served hw1 (hr1.userWrites_served hw2 (hr1.userWrites hw2).setInbox_served)

/-! ### Processes -/

theorem sysExec_served {filename argv : Nat} {argc : Int} (hfs : ∀ f ∈ fs, f.2.Linked)
    (hs : k.sysExec L fs filename argv argc = .ok (ret, k')) : Served L k c ret k' := by
  rcases sysExec_cases h.toValid h.current h.live hfs hs with ⟨_, _, rfl⟩ | ⟨elf, k₁, F₁, _, hx, rfl, rfl⟩
  · exact h.served_self
  have hr : Running L k₁ F₁ c := ⟨hx.valid, hx.current, hx.live, hx.active, hx.idleProc.trans h.idleProc⟩
  refine h.served_after hr.yield_served fun i hi hl => ?_
  refine h.kept hi hl (hx.others i hi) fun a hsc hlo => hx.spares a hlo fun hx' => hsc ?_
  exact scratch_of_stack hx'.1 (by rw [tfStackFrame_add]; exact hx'.2)

/-- A step that gives back pages that no other process holds. -/
theorem kept_frees {D : Nat → Prop} (hf : Frees L k.phys F k'.phys F' D fun _ => False)
    (hl : k.Live i) (hD : ∀ r pg, k.Holds L i r pg → ¬D pg) (hp : k'.procs i = k.procs i) : Kept k k' i := by
  refine ⟨⟨_, _, hp⟩, by rwa [Live, hp], fun a h1 h2 => hf.mem a (fun hd => ?_) id, fun a ha => ?_⟩
  · rcases h.toInv.frame_cases hl h1 h2 with ⟨_, h3⟩ | ⟨_, hh, _⟩
    · have := (hf.was _ hd).1.ge
      have := pageOf_lt (Nat.lt_of_lt_of_le h3 (tfStackFrame_lt L i))
      omega
    · exact hD _ _ hh hd
  · obtain ⟨q, hq⟩ := holds_space (L := L) hl (h.full i hl) ha
    exact hf.mem a (hD _ _ hq) id

/-- `sys_wait` frees zombie `z`, after it has stored the exit code to the memory of its caller. -/
structure Reaping (L : Layout) (k : Kernel) (F : List Nat) (c z : Fin procsMax) (k₁ k' : Kernel) (F' : List Nat) :
    Prop where
  zombie : k.findZombie = some z
  ne : c ≠ z
  stored : UserWrites k c k₁
  reaped : Reaped L k₁ F z k' F'
  held : ∀ i r pg, i ≠ z → k₁.Holds L i r pg → ¬k₁.Released L z pg

omit h in
theorem Reaping.procs {k₁ : Kernel} (h : Reaping L k F c z k₁ k' F') :
    k'.procs = Function.update k.procs z (Kernel.reaped (k.procs z)) := by
  rw [← h.stored.procs, h.reaped.state]
  rfl

/-- The zombie that is reaped has called no page of another process its own. -/
theorem sysWait_cases {status : Nat} (hst : StatusOk status)
    (hc : ∀ z, k.findZombie = some z → ChildrenExeced L k z) (hs : k.sysWait L status = .ok (ret, k')) :
    (k.findZombie = none ∧ ret = .switched ∧ k.yield L = (k', true)) ∨
      ∃ z k₁ F', ret = .value (k.procs z).pid ∧ k.storeStatus L status (k.procs z).exitCode = .ok k₁ ∧
        Reaping L k F c z k₁ k' F' := by
  have hcur := h.cur
  have hlc : k.Live k.cur := hcur.symm ▸ h.live
  have hsatp : k.satp = (k.procs k.cur).pageTable := hcur.symm ▸ h.active
  rcases sysWait_spec h.toInv hlc (h.full _ hlc) hsatp hst hs with hnone | ⟨z, k₁, hz, rfl, hw, hstore, hf⟩
  · exact .inl hnone
  rw [hcur] at hw
  have hr := h.userWrites hw
  obtain ⟨hzs, hzp⟩ := findZombie_some hz
  have hzl : k₁.Live z := by
    rw [hw.live, Live, hzs]
    simp
  have hz0 : z ≠ 0 := by
    rintro rfl
    rw [h.idle.2] at hzp
    cases hzp
  have hzc : c ≠ z := by
    rintro rfl
    rw [hcur] at hzp
    exact h.procOk.parent hzp
  obtain ⟨F', hreap⟩ := freeProc_spec hr.toInv hzl (hr.full z hzl) hf
  have hc₁ : ChildrenExeced L k₁ z := by
    unfold ChildrenExeced Live
    rw [hw.procs]
    exact hc z hz
  exact .inr ⟨z, k₁, F', rfl, hstore, hz, hzc, hw, hreap, fun i r pg hiz => hr.toInv.not_released hzl hz0 hc₁ hiz⟩

theorem sysWait_served {status : Nat} (hst : StatusOk status)
    (hc : ∀ z, k.findZombie = some z → ChildrenExeced L k z) (hs : k.sysWait L status = .ok (ret, k')) :
    Served L k c ret k' := by
  have hcur := h.cur
  have hlc : k.Live k.cur := hcur.symm ▸ h.live
  obtain ⟨F₂, hv⟩ := h.toValid.sysWait hlc (hcur.symm ▸ h.active) hst hc hs
  rcases h.sysWait_cases hst hc hs with ⟨_, rfl, hy⟩ | ⟨z, k₁, F', rfl, -, hreap⟩
  · have hserved := h.yield_served (L := L) (a := 0)
    rw [hy] at hserved
    exact hserved
  have hw := hreap.stored
  have hr := h.userWrites hw
  refine h.userWrites_served hw ?_
  have hprocs : k'.procs = Function.update k₁.procs z (reaped (k₁.procs z)) := by rw [hreap.procs, hw.procs]
  have hself : k'.procs c = k₁.procs c := by rw [hprocs, Function.update_of_ne hreap.ne]
  have hlive : ∀ i, k'.Live i → i ≠ z := by
    rintro i hl rfl
    rw [Live, hprocs, Function.update_self] at hl
    exact hl rfl
  refine ⟨⟨F₂, c, ⟨hv, ?_, ?_, ?_, ?_⟩, fun _ _ => rfl⟩, fun i hi hl hl' => ?_⟩
  · rw [hreap.reaped.state]
    exact hr.current
  · rw [Live, hself]
    exact hr.live
  · rw [hself, ← hr.active, hreap.reaped.state]
    rfl
  · rw [hreap.reaped.state]
    exact hr.idleProc
  · have hiz := hlive i hl'
    exact hr.kept_frees hreap.reaped.frees hl (fun r pg => hreap.held i r pg hiz)
      (by rw [hprocs, Function.update_of_ne hiz])

end Running

/-! ### All calls -/

/-- The call of process `c` stores to the memory of the user only, and the zombie that it finds has no child
in the pages that were charged to it. -/
def Careful (L : Layout) (k : Kernel) (c : Fin procsMax) : Call → Prop
  | .read fd buf len => readRefused fd buf len ∨ buf + len ≤ kernelBase
  | .wait status => StatusOk status ∧ ∀ z, k.findZombie = some z → ChildrenExeced L k z
  | .ipcRecv buf maxSize senderPid =>
    buf + min (k.procs c).inbox.size maxSize ≤ kernelBase ∧ StatusOk senderPid
  | _ => True

theorem Running.handleSyscall_served (h : Running L k F c) (hfs : ∀ f ∈ fs, f.2.Linked) (hc : k.Careful L c call)
    (hs : k.handleSyscall L fs input now call = .ok (ret, k', input')) : Served L k c ret k' := by
  cases call <;>
    simp only [Kernel.handleSyscall, bind_eq_ok, Prod.exists, Except.ok.injEq, Prod.mk.injEq] at hs
  case read fd buf len =>
    unfold sysRead at hs
    split at hs
    · simp only [Except.ok.injEq, Prod.mk.injEq] at hs
      exact hs.2.1 ▸ h.served_self
    · rename_i href
      exact h.readLoop_served (by simpa using hc.resolve_left (by simpa using href)) hs
  case yield =>
    obtain ⟨rfl, rfl, _⟩ := hs
    exact h.yield_served
  case fork =>
    obtain ⟨_, _, hs, rfl, rfl, _⟩ := hs
    obtain ⟨_, F', hr⟩ := h.sysFork_copied hs
    exact hr.served_of fun _ hi hl => h.sysFork_kept hi hl hs
  case exec =>
    obtain ⟨_, _, hs, rfl, rfl, _⟩ := hs
    exact h.sysExec_served hfs hs
  case exit =>
    obtain ⟨_, rfl, _⟩ := hs
    exact (h.sysExit _).served_of fun _ hi hl => h.sysExit_kept hi hl _
  case wait =>
    obtain ⟨_, _, hs, rfl, rfl, _⟩ := hs
    exact h.sysWait_served hc.1 hc.2 hs
  case sbrk =>
    obtain ⟨_, _, hs, rfl, rfl, _⟩ := hs
    obtain ⟨_, _, F', hr⟩ := h.sysSbrk_grown hs
    exact hr.served_of fun _ hi hl => h.sysSbrk_kept hi hl hs
  case sysinfo =>
    obtain ⟨_, _, hs, rfl, rfl, _⟩ := hs
    exact h.userWrites_served (h.copyToUser_served hs) (h.userWrites (h.copyToUser_served hs)).served_self
  case time =>
    obtain ⟨_, _, hs, rfl, rfl, _⟩ := hs
    exact h.userWrites_served (h.copyToUser_served hs) (h.userWrites (h.copyToUser_served hs)).served_self
  case ipcSend =>
    obtain ⟨_, _, hs, rfl, rfl, _⟩ := hs
    exact h.sysIpcSend_served hs
  case ipcRecv =>
    obtain ⟨_, _, hs, rfl, rfl, _⟩ := hs
    exact h.sysIpcRecv_served hc.2 hc.1 hs
  case write =>
    obtain ⟨_, _, _, rfl, rfl, _⟩ := hs
    exact h.served_self
  case log =>
    obtain ⟨_, _, _, rfl, rfl, _⟩ := hs
    exact h.served_self
  case tarfsExists =>
    obtain ⟨_, _, rfl, rfl, _⟩ := hs
    exact h.served_self
  all_goals
    obtain ⟨rfl, rfl, _⟩ := hs
    exact h.served_self

end Kernel

/-! ## Traps -/

namespace Machine

/-- The call that the trap makes, if any, is careful. -/
def Careful (L : Layout) (s : Machine) (t : Trap) : Prop :=
  ∀ call, t.request = some call → (s.inKernel L t).Careful L s.kernel.cur call

/-- The code that a process runs, and its entry into the kernel. -/
theorem Runs.inKernel_kept (hruns : s.Runs L t) (hr : Running L s.kernel F c) (hi : i ≠ c) (hl : s.kernel.Live i) :
    Kept s.kernel (s.inKernel L t) i := by
  have hw := hruns.userWrites hr
  have h1 := hr.userWrites_kept hi hl hw
  have h2 := (hr.userWrites hw).enter_kept (f := t.frame) hi h1.live
  unfold Machine.inKernel
  rw [hr.cur]
  exact h1.trans h2 (hr.proc i hl) (hr.full i hl)

/-- What a trap of process `c` leaves: some process runs, the others are as they were unless they have been
freed, and a process that was not the current one goes on through `user_return`. -/
structure Served (L : Layout) (s : Machine) (c : Fin procsMax) (s' : Machine) : Prop where
  running : ∃ F' c', Running L s'.kernel F' c'
  others : ∀ i, i ≠ c → s.kernel.Live i → s'.kernel.Live i → Kept s.kernel s'.kernel i
  resumed : s'.kernel.cur = c ∨ ∃ w, s' = resume L s'.kernel s'.input w

theorem Step.served (hfs : ∀ f ∈ fs, f.2.Linked) (hr : Running L s.kernel F c) (hc : s.Careful L t)
    (h : s.Step L fs t s') : Served L s c s' := by
  obtain ⟨hruns, htrap⟩ := h
  have hk := hruns.inKernel hr
  have h1 := fun i => hruns.inKernel_kept (i := i) hr
  have hcur := hr.cur
  unfold trap at htrap
  cases hcause : t.cause with
  | timer =>
      simp only [hcause, Except.ok.injEq] at htrap
      obtain ⟨⟨F', c', hr', hval⟩, ho⟩ := hr.served_after (hk.yield_served (L := L) (a := 0)) h1
      split at htrap
      · rw [← htrap]
        exact ⟨⟨F', c', hr'⟩, ho, .inr ⟨_, rfl⟩⟩
      · rename_i hstay
        rw [if_neg hstay] at hval
        obtain rfl := hval 0 rfl
        rw [← htrap]
        exact ⟨⟨F', c', hr'⟩, ho, .inl hr'.cur⟩
  | ecall =>
      simp only [hcause] at htrap
      split at htrap
      · cases htrap
      rename_i call hcall
      simp only [bind_eq_ok, Prod.exists] at htrap
      obtain ⟨ret, k', input, h2, htrap⟩ := htrap
      have hreq : t.request = some call := by rw [Trap.request, hcause, hcall]
      have hcc := hc call hreq
      rw [hcur] at hcc
      obtain ⟨⟨F', c', hr', hval⟩, ho⟩ := hr.served_after (hk.handleSyscall_served hfs hcc h2) h1
      cases ret with
      | switched =>
          simp only [Except.ok.injEq] at htrap
          rw [← htrap]
          exact ⟨⟨F', c', hr'⟩, ho, .inr ⟨_, rfl⟩⟩
      | value a0 =>
          obtain rfl := hval a0 rfl
          simp only [Except.ok.injEq, hcur] at htrap
          rw [← htrap]
          refine ⟨⟨F', c', hr'.setResult a0⟩, fun i hi hl hl' => ?_, .inl (hr'.setResult a0).cur⟩
          exact (ho i hi hl hl').trans (hr'.setResult_kept hi hl' a0) (hr.proc i hl) (hr.full i hl)

end Machine

end RiscvOs
