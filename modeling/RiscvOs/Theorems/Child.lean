import RiscvOs.Theorems.Isolation
import RiscvOs.Lemmas.Restart
import RiscvOs.Theorems.Yield

/-!
# The first turn of a child

`sys_fork` gives the child a frame and pages of its own. Until the child is scheduled for the first time other
processes run, its parent among them; it begins with what the fork has left.
-/

namespace RiscvOs

open ByteMem Outcome Kernel Lts

variable {L : Layout} {fs : Initramfs} {k k' : Kernel} {F F' : List Nat} {c i : Fin procsMax} {s s' s₀ s₁ : Machine}
  {t : Trap} {l l₀ : List Trap} {m : Mem} {tf root va : Nat} {w : BitVec 64} {j : Fin 32}

/-! ## The copy -/

theorem userView_eq_none (h : userFrame (leafAt m root (vpn va)) = none) : userView m root va = none := by
  rw [userView, userAddr, h]
  rfl

theorem userView_of_frame {pg : Nat} (h : userFrame (leafAt m root (vpn va)) = some pg) :
    userView m root va = some (m (pg + va % 4096)) := by
  rw [userView, userAddr, h]
  rfl

namespace Kernel.Forked

variable (hf : Forked L k F i tf root k' F') (hk : k.Inv L F) (hl : k.Live k.cur)
  (hpt : (k.procs k.cur).pageTable ≠ 0)

include hf in
/-- The registers of the child are those of its parent, but for the result. -/
theorem child_frame (hj : j ≠ 10) (hpc : j ≠ tfPc) :
    loadFrame k'.phys.mem (k'.procs i).tf j = loadFrame k.phys.mem (k.procs k.cur).tf j := by
  have hw := hf.frames.child j j.isLt
  rw [if_neg (show (j : Nat) ≠ tfA0 from fun he => hj (Fin.ext he)),
    if_neg (show (j : Nat) ≠ tfEpc from fun he => hpc (Fin.ext he))] at hw
  rw [hf.procs_child, loadFrame_apply, loadFrame_apply]
  exact congrArg _ hw

include hf hk hl hpt in
/-- Within the range that `sys_fork` goes through, the child sees what its parent sees. -/
theorem child_view (hheap : (k.procs k.cur).heapEnd ≤ kernelBase) (hstack : (k.procs k.cur).userStackTop ≤ kernelBase)
    (hge : userBase ≤ va) (hlt : va < max (k.procs k.cur).heapEnd (k.procs k.cur).userStackTop) :
    userView k'.phys.mem (k'.procs i).pageTable va = userView k.phys.mem (k.procs k.cur).pageTable va := by
  have hbelow : va < kernelBase := Nat.lt_of_lt_of_le hlt (Nat.max_le.mpr ⟨hheap, hstack⟩)
  have hpage : PageCopied L k k' (k.procs k.cur).pageTable root (pageOf va) := hf.pageCopied hk hl hpt hheap hstack
    (by unfold pageOf; omega) (by unfold pageOf userBase at *; omega)
    (Nat.lt_of_le_of_lt (by unfold pageOf; omega) hlt)
  have hs := (hk.proc _ hl).spaceOk hpt
  have hparent := ((hk.proc _ hl).map hpt).walkPage (fun pg h => (hs.page pg h).1) hbelow
  have hchild := hf.map.walkPage (fun pg h => (hf.space.page pg h).1) hbelow
  have hroot : (k'.procs i).pageTable = root := by rw [hf.procs_child]; rfl
  have hv : vpn (pageOf va) = vpn va := by
    rw [vpn_eq_iff]
    unfold pageOf
    omega
  have hwalk : ∀ m root, Phys.walkPage m root (pageOf va) = Phys.walkPage m root va := fun m root => by
    rw [walkPage_eq, walkPage_eq, hv]
  rw [hroot]
  rcases hchild with ⟨h0, hn⟩ | ⟨pg, hw, hne, hu⟩
  · rcases hparent with ⟨-, hn'⟩ | ⟨fr, hw', hne', -⟩
    · rw [userView_eq_none hn, userView_eq_none hn']
    · have hmapped := hpage.mapped.mpr (by rwa [hwalk, hw'])
      exact absurd ((hwalk _ _).trans h0) hmapped
  · rcases hparent with ⟨h0', -⟩ | ⟨fr, hw', -, hu'⟩
    · have hmapped := hpage.mapped.mp (by rwa [hwalk, hw])
      exact absurd ((hwalk _ _).trans h0') hmapped
    · rw [userView_of_frame hu, userView_of_frame hu',
        hpage.bytes pg ((hwalk _ _).trans hw) hne (va % 4096) (Nat.mod_lt _ (by decide)), hwalk, hw']

end Kernel.Forked

/-! ## The turn -/

namespace Machine

/-- What the child in slot `i` begins with that is forked at trap `t`. -/
structure FirstTurn (s : Machine) (t : Trap) (i : Fin procsMax) (s' : Machine) : Prop where
  pc : s'.user tfPc = t.frame tfPc + 4
  a0 : s'.user 10 = 0
  a1 : s'.user tfA1 = 0
  regs : ∀ j, j ≠ tfPc → ¬Lost j → s'.user j = t.frame j
  memory : (s.kernel.procs s.kernel.cur).heapEnd ≤ kernelBase → ∀ va, userBase ≤ va →
    va < max (s.kernel.procs s.kernel.cur).heapEnd (s.kernel.procs s.kernel.cur).userStackTop →
      userView s'.kernel.phys.mem (s'.kernel.procs i).pageTable va =
        userView t.mem (s.kernel.procs s.kernel.cur).pageTable va

/-- A fork leaves the child as `sys_fork` has made it. -/
theorem Step.fork_child (hr : Running L s.kernel F c) (h : s.Step L fs t s₁) (hreq : t.request = some .fork)
    (hslot : s.kernel.freeSlot = some i) : ∃ k' tf root F', Forked L (s.inKernel L t) F i tf root k' F' ∧
      Kept k' s₁.kernel i ∧ (∃ F, Running L k' F c) ∧ (∃ F, Running L s₁.kernel F c) ∧
        s₁.user 10 = BitVec.ofNat 64 (i + 1) := by
  obtain ⟨hruns, htrap⟩ := h
  have hk := hruns.inKernel hr
  have hl : (s.inKernel L t).Live (s.inKernel L t).cur := hk.cur.symm ▸ hk.live
  have hpt := hk.full _ hl
  obtain ⟨hcause, hcall⟩ : t.cause = .ecall ∧ callOf t.frame = some .fork := by
    unfold Trap.request at hreq
    split at hreq
    · cases hreq
    · exact ⟨‹_›, hreq⟩
  unfold trap at htrap
  simp only [hcause, hcall, Kernel.handleSyscall, bind_eq_ok, Prod.exists, Except.ok.injEq, Prod.mk.injEq] at htrap
  obtain ⟨ret, k', input, ⟨ret₀, k₀, hfork, rfl, rfl, rfl⟩, htrap⟩ := htrap
  obtain ⟨-, F', hr'⟩ := hk.sysFork_copied hfork
  rcases sysFork_spec hk.toInv hl hpt hfork with ⟨hfull, -, -⟩ | ⟨d, tf, root, F₁, rfl, hf⟩
  · cases hfull.symm.trans hslot
  obtain rfl : i = d := Option.some.inj (hslot.symm.trans hf.slot)
  have hic : i ≠ c := fun he => freeSlot_unused hf.slot (he ▸ hk.live)
  have hlive : k₀.Live i := by
    rw [Live, hf.procs_child]
    simp [forkChild]
  simp only [Except.ok.injEq] at htrap
  rw [← htrap, hr.cur]
  exact ⟨k₀, tf, root, F₁, hf, hr'.setResult_kept hic hlive (i + 1), ⟨F', hr'⟩,
    ⟨F', hr'.setResult (i + 1)⟩, goOn_a0⟩

/-- The child of a fork has its first turn. -/
theorem Step.fork_firstTurn (hfs : ∀ f ∈ fs, f.2.Linked) (hr : Running L s.kernel F c) (h : s.Step L fs t s₁)
    (hreq : t.request = some .fork) (hslot : s.kernel.freeSlot = some i) (hres : s₁.Resumes L fs i l s') :
    s₁.user 10 = BitVec.ofNat 64 (s'.kernel.procs i).pid ∧ FirstTurn s t i s' := by
  obtain ⟨k', tf, root, F', hf, hkept₁, ⟨F₁, hr₁⟩, ⟨F₂, hr₂⟩, ha0⟩ := h.fork_child hr hreq hslot
  have hruns := h.1
  have hk := hruns.inKernel hr
  have hl : (s.inKernel L t).Live (s.inKernel L t).cur := hk.cur.symm ▸ hk.live
  have hpt := hk.full _ hl
  have hic : i ≠ c := fun he => freeSlot_unused hf.slot (he ▸ hk.live)
  have hlive : k'.Live i := by
    rw [Live, hf.procs_child]
    simp [forkChild]
  obtain ⟨⟨F', hr'⟩, hkept₂, hback⟩ := hres.kept hfs ⟨F₂, c, hr₂⟩ hkept₁.live
  have hkept := hkept₁.trans hkept₂ (hr₁.proc i hlive) (hr₁.full i hlive)
  obtain ⟨w, hw⟩ := hback.resolve_left fun he => hic (by rw [← hr'.cur, he.2, hr₂.cur])
  have huser : s'.user = s'.kernel.userReturn L w := by rw [hw]; rfl
  have hframe := hruns.inKernel_frame hr
  have hparent : loadFrame (s.inKernel L t).phys.mem ((s.inKernel L t).procs (s.inKernel L t).cur).tf = t.frame := by
    rw [hk.cur]
    exact hframe
  refine ⟨?_, ?_, ?_, ?_, fun j hpc hj => ?_, fun hheap va hge hlt => ?_⟩
  · obtain ⟨st, msg, hrec⟩ := hkept.record
    rw [ha0, hrec, hf.procs_child]
    rfl
  · rw [huser, userReturn_kept (by decide), hr'.cur, hkept.loadFrame, hf.child_pc, hparent]
  · rw [huser, userReturn_a0, hr'.cur, hkept.argc, hf.procs_child]
    rfl
  · rw [huser, userReturn_a1, hr'.cur, hkept.argvPtr, hf.procs_child]
    rfl
  · rw [huser, userReturn_kept hj, hr'.cur, hkept.loadFrame, hf.child_frame (fun he => hj (by simp [Lost, he])) hpc,
      hparent]
  · rw [hkept.stays.userView ((hr₁.proc i hlive).spaceOk (hr₁.full i hlive))]
    rw [hr.cur] at hheap hlt ⊢
    rw [hf.child_view hk.toInv hl hpt (by rw [hk.cur]; exact hheap) (hk.stack _ hl) hge (by rw [hk.cur]; exact hlt),
      hk.cur]
    exact (atTrap_stays hr hruns).userView (hr.userWrites (hruns.userWrites hr)).spaceOk va

end Machine

end RiscvOs
