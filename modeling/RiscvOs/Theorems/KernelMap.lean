import RiscvOs.Theorems.Image
import RiscvOs.Theorems.Transitions

/-!
# Every process has the map of the kernel

The kernel runs in the address space of whichever process has trapped. In every run in which the breaks stay below
the kernel, every address space maps the kernel and its memory to themselves, out of reach of the user, and what the
user reaches lies below.
-/

namespace RiscvOs

open ByteMem Outcome Kernel Lts

variable {L : Layout} {fs : Initramfs} {k k' : Kernel} {F F' F₁ : List Nat} {i c : Fin procsMax} {s s' s₀ : Machine}
  {t : Trap} {l : List Trap} {call : Call} {ret : SysRet} {input input' now : List UInt8} {pa o root : Nat} {inc : Int}

namespace Kernel

/-- The pages of the kernel are mapped to themselves, and the user's pages, its break and its stack lie below. -/
structure Halves (L : Layout) (k : Kernel) (i : Fin procsMax) : Prop where
  kernel : ∀ pa, IdentityPage L pa → k.map i (vpn pa) = identityEntry pa
  user : ∀ v pg, userFrame (k.map i v) = some pg → BelowKernel v
  heapEnd : (k.procs i).heapEnd ≤ kernelBase
  userStackTop : (k.procs i).userStackTop ≤ kernelBase

/-- What the map means for the accesses in the address space of process `i`. -/
structure MapsKernel (L : Layout) (k : Kernel) (i : Fin procsMax) : Prop where
  kernel : ∀ va mask, kernelBase ≤ va → va < L.freeRamEnd → mask = pteR ∨ mask = pteW ∨ mask = pteX →
    Phys.translate k.phys.mem (k.procs i).pageTable va mask = some va
  user : ∀ va pa, va < 2 ^ 64 → Phys.translate k.phys.mem (k.procs i).pageTable va pteU = some pa → va < kernelBase

theorem Halves.mapsKernel (h : k.Halves L i) : k.MapsKernel L i := by
  refine ⟨fun va mask hge hlt hmask => ?_, fun va pa hva hu => ?_⟩
  · have hend := L.freeRamEnd_lt
    have hpage : IdentityPage L (pageOf va) :=
      ⟨by unfold pageOf kernelBase at *; omega, by unfold pageOf; omega, by unfold pageOf; omega⟩
    have hleaf : leafAt k.phys.mem (k.procs i).pageTable (vpn va) = identityEntry (pageOf va) := by
      have hv : vpn va = vpn (pageOf va) := vpn_eq_iff.mpr (by unfold pageOf; omega)
      rw [hv]
      exact h.kernel _ hpage
    rw [translate_of_entry (pageOf va) (pteV ||| pteRWX ||| pteV) hleaf hpage.aligned (by unfold pageOf; omega)
      (by decide) (by rcases hmask with rfl | rfl | rfl <;> decide) (by decide)
      (by rcases hmask with rfl | rfl | rfl <;> decide) (by omega)]
    exact congrArg some (by unfold pageOf; omega)
  · obtain ⟨pg, hf, -⟩ := translate_user hu
    obtain ⟨va', hlt, hv⟩ := h.user _ pg hf
    unfold Phys.translate at hu
    simp only [Option.ite_none_right_eq_some, Bool.and_eq_true, Bool.or_eq_true, decide_eq_true_eq] at hu
    rw [vpn_eq_iff] at hv
    unfold kernelBase at *
    omega

theorem Halves.congr (h : k.Halves L i) (hl : k.Live i) (hs : SameMap k k' i) : k'.Halves L i := by
  refine ⟨?_, ?_, ?_, ?_⟩
  · rw [hs.map hl]
    exact h.kernel
  · rw [hs.map hl]
    exact h.user
  · rw [hs.heapEnd hl]
    exact h.heapEnd
  · rw [hs.userStackTop hl]
    exact h.userStackTop

/-- A step of another process keeps the map. -/
theorem Kept.sameMap (h : Kept k k' i) (hk : k.Valid L F) (hl : k.Live i) : SameMap k k' i := by
  obtain ⟨st, msg, hr⟩ := h.record
  refine ⟨iff_of_true h.live hl, fun _ => ?_, fun _ => by rw [hr], fun _ => by rw [hr]⟩
  unfold Kernel.map
  rw [h.pageTable]
  exact leafAt_congr (fun a ha => h.space a ha.inSpace) fun pg => ((hk.proc i hl).spaceOk (hk.full i hl)).tables.aligned

/-! ## Calls that keep the maps -/

theorem Valid.setInbox_sameMap (hk : k.Valid L F) (j : Fin procsMax) (msg : IpcMessage) (i : Fin procsMax) :
    SameMap k (k.setInbox j msg) i :=
  .of_tables hk (setInbox_same j msg i) fun _ _ _ => rfl

theorem Valid.sysExit_sameMap (hk : k.Valid L F) (hl : k.Live k.cur) (code : Nat) (i : Fin procsMax) :
    SameMap k (k.sysExit code) i := by
  refine .of_tables hk ?_ fun _ _ _ => rfl
  by_cases hi : i = k.cur
  · subst hi
    rw [Kernel.sysExit, setProc_procs_self]
    exact ⟨iff_of_true (by simp) hl, rfl, rfl, rfl, rfl, rfl, rfl, rfl, rfl, rfl⟩
  · rw [Kernel.sysExit, setProc_procs_of_ne hi]
    exact .refl _

namespace Running

variable (h : Running L k F c)
include h

theorem readLoop_sameMap {buf j n : Nat} (hb : buf + j + n ≤ kernelBase)
    (hs : k.readLoop L buf j n input = .ok (ret, k', input')) (i : Fin procsMax) : SameMap k k' i := by
  induction n generalizing k j input with
  | zero =>
      simp only [readLoop, Except.ok.injEq, Prod.mk.injEq] at hs
      rw [← hs.2.1]
      exact .refl _ _
  | succ n ih =>
      cases input with
      | nil => cases hs
      | cons b input =>
          simp only [readLoop, bind_eq_ok] at hs
          obtain ⟨k₁, h1, hs⟩ := hs
          have hw := storeU8_spec h.toInv h.live h.pageTable h.active (by omega) h1
          have hr := h.userWrites hw
          refine (hw.sameMap h.toValid h.live i).trans ?_
          split at hs
          · simp only [Except.ok.injEq, Prod.mk.injEq] at hs
            rw [← hs.2.1]
            exact .refl _ _
          · have hy := hr.toValid.yield_sameMap i
            split at hs
            · rename_i k₂ hk
              simp only [Except.ok.injEq, Prod.mk.injEq] at hs
              rw [hk] at hy
              rw [← hs.2.1]
              exact hy
            · rename_i k₂ hk
              rw [hk] at hy
              have hsw := yield_switched (k := k₁) (L := L)
              rw [hk] at hsw
              have hr₂ : Running L k₂ F c := by
                have := hr.yield_stay (of_decide_eq_false hsw.symm)
                rwa [hk] at this
              exact hy.trans (ih hr₂ (by omega) hs)

/-- What is freed belongs to the zombie. -/
theorem sysWait_sameMap {status : Nat} (hst : StatusOk status)
    (hc : ∀ z, k.findZombie = some z → ChildrenExeced L k z) (hs : k.sysWait L status = .ok (ret, k'))
    (hl : k'.Live i) : SameMap k k' i := by
  rcases h.sysWait_cases hst hc hs with ⟨_, _, hy⟩ | ⟨z, k₁, F', rfl, -, hreap⟩
  · have hsame := h.toValid.yield_sameMap i
    rw [hy] at hsame
    exact hsame
  have hw := hreap.stored
  have hr := h.userWrites hw
  have hprocs : k'.procs = Function.update k₁.procs z (reaped (k₁.procs z)) := by rw [hreap.procs, hw.procs]
  have hiz : i ≠ z := by
    rintro rfl
    rw [Live, hprocs, Function.update_self] at hl
    exact hl rfl
  have hself : k'.procs i = k₁.procs i := by rw [hprocs, Function.update_of_ne hiz]
  have hl₁ : k₁.Live i := by
    unfold Live at *
    rwa [hself] at hl
  have hkept := hr.kept_frees hreap.reaped.frees hl₁ (fun r pg => hreap.held i r pg hiz) hself
  exact (hw.sameMap h.toValid h.live i).trans (hkept.sameMap hr.toValid hl₁)

/-- The other calls leave the map of every process that is still there as it is. -/
theorem handleSyscall_sameMap (hc : k.Careful L c call) (hm : ¬call.Maps)
    (hs : k.handleSyscall L fs input now call = .ok (ret, k', input')) (hl : k'.Live i) : SameMap k k' i := by
  cases call <;>
    simp only [Kernel.handleSyscall, bind_eq_ok, Prod.exists, Except.ok.injEq, Prod.mk.injEq] at hs
  case fork | exec | sbrk => exact absurd trivial hm
  case read fd buf len =>
    unfold sysRead at hs
    split at hs
    · simp only [Except.ok.injEq, Prod.mk.injEq] at hs
      exact hs.2.1 ▸ .refl _ _
    · rename_i href
      exact h.readLoop_sameMap (by simpa using hc.resolve_left (by simpa using href)) hs i
  case yield =>
    obtain ⟨-, rfl, -⟩ := hs
    exact h.toValid.yield_sameMap i
  case exit code =>
    obtain ⟨-, rfl, -⟩ := hs
    exact h.toValid.sysExit_sameMap (h.cur.symm ▸ h.live) code i
  case wait =>
    obtain ⟨_, _, hs, -, rfl, -⟩ := hs
    exact h.sysWait_sameMap hc.1 hc.2 hs hl
  case sysinfo | time =>
    obtain ⟨_, _, hs, -, rfl, -⟩ := hs
    exact (h.copyToUser_served hs).sameMap h.toValid h.live i
  case ipcSend destPid buf size =>
    obtain ⟨_, _, hs, -, rfl, -⟩ := hs
    unfold sysIpcSend at hs
    split at hs
    · simp only [Except.ok.injEq, Prod.mk.injEq] at hs
      exact hs.2 ▸ .refl _ _
    split at hs
    · cases hs
    split at hs
    · simp only [Except.ok.injEq, Prod.mk.injEq] at hs
      exact hs.2 ▸ .refl _ _
    split at hs
    · simp only [Except.ok.injEq, Prod.mk.injEq] at hs
      exact hs.2 ▸ .refl _ _
    · simp only [bind_eq_ok, Except.ok.injEq, Prod.mk.injEq] at hs
      obtain ⟨bytes, -, -, rfl⟩ := hs
      exact h.toValid.setInbox_sameMap _ _ i
  case ipcRecv buf maxSize senderPid =>
    obtain ⟨_, _, hs, -, rfl, -⟩ := hs
    unfold sysIpcRecv at hs
    rw [h.cur] at hs
    dsimp only at hs
    split at hs
    · simp only [Except.ok.injEq, Prod.mk.injEq] at hs
      exact hs.2 ▸ .refl _ _
    · simp only [bind_eq_ok, Except.ok.injEq, Prod.mk.injEq] at hs
      obtain ⟨k₁, h1, k₂, h2, -, rfl⟩ := hs
      have hw1 := storeBytes_spec h.toInv h.live h.pageTable h.active (by simpa [IpcMessage.copied] using hc.1) h1
      have hr1 := h.userWrites hw1
      have hw2 := hr1.storeSender_spec hc.2 h2
      exact ((hw1.sameMap h.toValid h.live i).trans (hw2.sameMap hr1.toValid hr1.live i)).trans
        ((hr1.userWrites hw2).toValid.setInbox_sameMap _ _ i)
  case write | log =>
    obtain ⟨_, _, _, -, rfl, -⟩ := hs
    exact .refl _ _
  case tarfsExists =>
    obtain ⟨_, _, -, rfl, -⟩ := hs
    exact .refl _ _
  all_goals
    obtain ⟨-, rfl, -⟩ := hs
    exact .refl _ _

end Running

/-! ## Calls that change a map -/

/-- Below the kernel the pages of a copy lie below it. -/
theorem CopyPage.below {v : Vpn} (hheap : (k.procs k.cur).heapEnd ≤ kernelBase)
    (htop : (k.procs k.cur).userStackTop ≤ kernelBase) (hv : k.CopyPage v) : BelowKernel v := by
  obtain ⟨j, hj, rfl, -⟩ := hv
  have hle := Nat.max_le.mpr ⟨hheap, htop⟩
  refine ⟨_, ?_, rfl⟩
  unfold Phys.pagesUpTo userBase at hj
  unfold userBase
  unfold kernelBase at *
  split at hj <;> omega

/-- So do the pages of a larger heap. -/
theorem SbrkPage.below {old new : Nat} {v : Vpn} (hnew : new ≤ kernelBase) (hv : SbrkPage old new v) :
    BelowKernel v := by
  obtain ⟨j, hj, rfl⟩ := hv
  refine ⟨_, ?_, rfl⟩
  unfold Phys.pagesUpTo pgRoundUp at hj
  unfold pgRoundUp kernelBase at *
  split at hj <;> omega

end Kernel

/-- The new space of a child keeps the map of the kernel where nothing is copied. -/
theorem forkSpace_identity {s s₁ s₂ s₃ : Phys} (hk : k.Inv L F) (hl : k.Live k.cur)
    (hpt : (k.procs k.cur).pageTable ≠ 0) (hg : Grows L o k.phys F s F₁ (TfPages L k k.cur))
    (h1 : s.allocPages L o 1 = .ok (root, s₁))
    (h2 : s₁.mapRange L o root kernelBase kernelBase (pteV ||| pteRWX) (identityPages L) = .ok s₂)
    (h3 : s₂.mapLoop L o root (pteV ||| pteU ||| pteRWX) (forkSource (k.procs k.cur).pageTable) userBase
      (Phys.pagesUpTo userBase (max (k.procs k.cur).heapEnd (k.procs k.cur).userStackTop)) = .ok s₃)
    (hpa : IdentityPage L pa) (hno : ¬k.CopyPage (vpn pa)) : leafAt s₃.mem root (vpn pa) = identityEntry pa := by
  obtain ⟨F₂, hb⟩ := allocPages_one hg.ok hg.track h1
  obtain ⟨F₃, hn, hid, -⟩ := NewSpace.identity hb hg.ok h2
  have hgrow : ∀ t Ft, Grows L o s₂ F₃ t Ft (IsTable s₂.mem root) →
      Grows L o k.phys F t Ft (TfPages L k k.cur) := fun t Ft ht =>
    (hg.trans hn.grows fun _ h => h.elim).trans ht fun pg hpg => .inr (hg.avail _ (hn.new pg hpg.inSpace))
  have he := Extend.refl (o := o) (C := fun _ _ _ => True) hn.grows.ok hn.grows.track hn.space
  obtain ⟨F', he, -⟩ := he.mapLoop (by decide) (by decide) (by decide)
    (f := forkSource (k.procs k.cur).pageTable k.phys.mem)
    (fun t Ft ht i _ => forkSource_congr (hk.leafAt_grows hl hpt (hgrow t Ft ht)) _)
    (fun t Ft _ i _ a n ha => by
      obtain ⟨rfl, -⟩ := forkSource_eq_some ha
      exact ⟨Nat.le_refl _, fun _ _ => trivial⟩) h3
  rw [he.same _ fun h => hno (h.resolve_left id)]
  exact hid pa hpa

namespace Kernel.Running

variable (h : Running L k F c)
include h

theorem sysFork_identity (hs : k.sysFork L = .ok (ret, k')) (hslot : k.freeSlot = some i) (hpa : IdentityPage L pa)
    (hno : ¬k.CopyPage (vpn pa)) : k'.map i (vpn pa) = identityEntry pa := by
  have hl : k.Live k.cur := h.cur.symm ▸ h.live
  have hpt := h.full _ hl
  rw [sysFork_eq hslot hl] at hs
  simp only [bind_eq_ok, Prod.exists, Except.ok.injEq, Prod.mk.injEq] at hs
  obtain ⟨tf, s₁, h1, root, s₂, h2, s₃, h3, s₄, h4, -, rfl⟩ := hs
  have hg0 : Grows L k.owner k.phys F (k.forkStack L i) F (TfPages L k k.cur) := forkStack_grows h.toInv
  obtain ⟨F₁, hb⟩ := allocPages_one hg0.ok hg0.track h1
  have hg2 := forkFrames_grows (i + 1) h.toInv hl (hg0.trans hb.grows fun _ h => h.elim) (hg0.avail _ hb.was_one)
    hb.not_avail
  unfold Kernel.map
  rw [setProc_procs_self]
  exact forkSpace_identity h.toInv hl hpt hg2 h2 h3 h4 hpa hno

theorem sysFork_halves (hm : ∀ i, k.Live i → k.Halves L i) (hs : k.sysFork L = .ok (ret, k')) (hl : k'.Live i) :
    k'.Halves L i := by
  obtain ⟨⟨-, rfl⟩ | ⟨j, hslot, hcopied⟩, -⟩ := h.sysFork_copied hs
  · exact hm i hl
  have hc := hm c h.live
  have hbelow : ∀ {v : Vpn}, k.CopyPage v → BelowKernel v :=
    CopyPage.below (h.cur.symm ▸ hc.heapEnd) (h.cur.symm ▸ hc.userStackTop)
  by_cases hij : i = j
  · subst hij
    refine ⟨fun pa hpa => h.sysFork_identity hs hslot hpa fun hcp => hpa.not_below (hbelow hcp), fun v pg hf => ?_,
      hcopied.heapEnd ▸ hc.heapEnd, ?_⟩
    · by_contra hv
      rw [hcopied.rest v fun hcp => hv (hbelow hcp)] at hf
      cases hf
    · rcases sysFork_spec h.toInv (h.cur.symm ▸ h.live) (h.full _ (h.cur.symm ▸ h.live)) hs with
        ⟨hn, -, -⟩ | ⟨d, tf, root, F₁, -, hf⟩
      · exact absurd (hn.symm.trans hslot) (by simp)
      · obtain rfl : d = i := Option.some.inj (hf.slot.symm.trans hslot)
        rw [hf.state, setProc_procs_self]
        show (k.procs k.cur).userStackTop ≤ kernelBase
        rw [h.cur]
        exact hc.userStackTop
  · have hl' := (hcopied.others i hij).live.mp hl
    exact (hm i hl').congr hl' (hcopied.others i hij)

theorem sysSbrk_halves (hm : ∀ i, k.Live i → k.Halves L i)
    (hb : 0 ≤ ((k.procs c).heapEnd : Int) + inc ∧ ((k.procs c).heapEnd : Int) + inc ≤ kernelBase)
    (hs : k.sysSbrk L inc = .ok (ret, k')) (hl : k'.Live i) : k'.Halves L i := by
  obtain ⟨-, hg, -⟩ := h.sysSbrk_grown hs
  by_cases hic : i = c
  · subst hic
    have hi := hm i h.live
    have hheap : (k'.procs i).heapEnd ≤ kernelBase := by
      rw [hg.heapEnd]
      unfold kernelBase at *
      omega
    have hleaves := hg.leaves
    rw [← hg.heapEnd] at hleaves
    have hsame : ∀ v, ¬BelowKernel v → k'.map i v = k.map i v := fun v hv =>
      hleaves.same v fun hp => hv (hp.2.below hheap)
    refine ⟨fun pa hpa => ?_, fun v pg hf => ?_, hheap, hg.userStackTop ▸ hi.userStackTop⟩
    · rw [hsame _ hpa.not_below]
      exact hi.kernel pa hpa
    · by_contra hv
      rw [hsame v hv] at hf
      exact hv (hi.user v pg hf)
  · have hl' := (hg.others i hic).live.mp hl
    exact (hm i hl').congr hl' (hg.others i hic)

theorem sysExec_halves (hfs : ∀ f ∈ fs, f.2.Linked) {filename argv : Nat} {argc : Int}
    (hm : ∀ i, k.Live i → k.Halves L i) (hs : k.sysExec L fs filename argv argc = .ok (ret, k')) (hl : k'.Live i) :
    k'.Halves L i := by
  obtain ⟨⟨-, rfl⟩ | ⟨elf, -, hren⟩, -⟩ := h.sysExec_renewed hfs hs
  · exact hm i hl
  by_cases hic : i = c
  · subst hic
    refine ⟨hren.identity, fun v pg hf => ?_, ?_, ?_⟩
    · exact (hren.user v pg hf).below (by decide) (by decide) (by decide)
    · rw [hren.heapEnd]
      decide
    · rw [hren.userStackTop]
      decide
  · have hl' := (hren.others i hic).live.mp hl
    exact (hm i hl').congr hl' (hren.others i hic)

end Kernel.Running

/-! ## Runs -/

namespace Machine

/-- A call of `sys_sbrk` leaves the break below the kernel. -/
def BreakLow (s : Machine) (t : Trap) : Prop := ∀ inc, t.request = some (.sbrk inc) →
  0 ≤ ((s.kernel.procs s.kernel.cur).heapEnd : Int) + inc ∧
    ((s.kernel.procs s.kernel.cur).heapEnd : Int) + inc ≤ kernelBase

/-- One trap keeps the two halves apart. -/
theorem CarefulStep.halves (hfs : ∀ f ∈ fs, f.2.Linked) (hr : Running L s.kernel F c)
    (hm : ∀ i, s.kernel.Live i → s.kernel.Halves L i) (h : s.CarefulStep L fs t s') (hb : s.BreakLow t)
    (hl : s'.kernel.Live i) : s'.kernel.Halves L i := by
  obtain ⟨⟨hruns, htrap⟩, hcare⟩ := h
  have hk := hruns.inKernel hr
  have hm' : ∀ i, (s.inKernel L t).Live i → (s.inKernel L t).Halves L i := fun i hl =>
    (hm i hl).congr hl (hruns.inKernel_sameMap hr i)
  have hcur := hr.cur
  unfold trap at htrap
  cases hcause : t.cause with
  | timer =>
      simp only [hcause, Except.ok.injEq] at htrap
      have hs' : s'.kernel = ((s.inKernel L t).yield L).1 := by
        rw [← htrap]
        split <;> rfl
      have hsame := hk.toValid.yield_sameMap i
      rw [hs'] at hl ⊢
      exact (hm' i (hsame.live.mp hl)).congr (hsame.live.mp hl) hsame
  | ecall =>
      simp only [hcause] at htrap
      split at htrap
      · cases htrap
      rename_i call hcall
      simp only [bind_eq_ok, Prod.exists] at htrap
      obtain ⟨ret, k', input, h2, htrap⟩ := htrap
      have hreq : t.request = some call := by rw [Trap.request, hcause, hcall]
      have hcc := hcare call hreq
      rw [hcur] at hcc
      obtain ⟨F', c', hr', hval⟩ := (hk.handleSyscall_served hfs hcc h2).running
      have hk' : ∀ i, k'.Live i → k'.Halves L i := fun i hl => by
        by_cases hmaps : call.Maps
        · cases call with
          | sbrk inc =>
              simp only [Kernel.handleSyscall, bind_eq_ok, Prod.exists, Except.ok.injEq, Prod.mk.injEq] at h2
              obtain ⟨_, _, h2, -, rfl, -⟩ := h2
              have hbreak := hb inc hreq
              rw [hcur] at hbreak
              exact hk.sysSbrk_halves hm' hbreak h2 hl
          | fork =>
              simp only [Kernel.handleSyscall, bind_eq_ok, Prod.exists, Except.ok.injEq, Prod.mk.injEq] at h2
              obtain ⟨_, _, h2, -, rfl, -⟩ := h2
              exact hk.sysFork_halves hm' h2 hl
          | exec filename argv argc =>
              simp only [Kernel.handleSyscall, bind_eq_ok, Prod.exists, Except.ok.injEq, Prod.mk.injEq] at h2
              obtain ⟨_, _, h2, -, rfl, -⟩ := h2
              exact hk.sysExec_halves hfs hm' h2 hl
          | _ => exact hmaps.elim
        · have hsame := hk.handleSyscall_sameMap hcc hmaps h2 hl
          exact (hm' i (hsame.live.mp hl)).congr (hsame.live.mp hl) hsame
      cases ret with
      | switched =>
          simp only [Except.ok.injEq] at htrap
          rw [← htrap] at hl ⊢
          exact hk' i hl
      | value a0 =>
          obtain rfl := hval a0 rfl
          simp only [Except.ok.injEq, hcur] at htrap
          have hsame := hr'.toValid.setResult_sameMap (c := c') a0 i
          rw [← htrap] at hl ⊢
          exact (hk' i (hsame.live.mp hl)).congr (hsame.live.mp hl) hsame

theorem Start.halves (hfs : ∀ f ∈ fs, f.2.Linked) (h : s.Start L fs) (hl : s.kernel.Live i) :
    s.kernel.Halves L i := by
  obtain ⟨m, hm⟩ := h.kernel
  obtain ⟨F, hb, _⟩ := kernelMain_booted hfs hm
  refine ⟨hb.identity i hl, fun v pg hf => ?_, ?_, ?_⟩
  · exact (hb.user i hl v pg hf).below (by decide) (by decide) (by decide)
  · rw [hb.heap i hl]
    decide
  · rw [hb.top i hl]
    decide

end Machine

end RiscvOs
