import RiscvOs.Lemmas.Away

/-!
# The registers of the process that calls

`trap_vector` and `trap_handler` store the registers twice, on the kernel stack and in the frame of the record.
Except for the result of `sys_fork` in the second one, no call writes to them but a `sys_exec` that succeeds.
-/

namespace RiscvOs

open ByteMem Outcome Kernel Lts

variable {L : Layout} {k k' k'' : Kernel} {F F' : List Nat} {c : Fin procsMax} {fs : Initramfs} {ret : SysRet}
  {a : Nat} {input input' now : List UInt8} {call : Call} {j : Fin 32} {o : Nat} {W D : Nat → Prop}

namespace Kernel

/-- An address in a trap frame of process `c`. -/
def InFrame (L : Layout) (k : Kernel) (c : Fin procsMax) (a : Nat) : Prop :=
  (L.tfStackFrame c ≤ a ∧ a < L.tfStackFrame c + frameSize) ∨ ((k.procs c).tf ≤ a ∧ a < (k.procs c).tf + frameSize)

/-- The place of `a0` in the frame of the record. -/
def ResultWord (k : Kernel) (c : Fin procsMax) (a : Nat) : Prop :=
  (k.procs c).tf + 8 * tfA0 ≤ a ∧ a < (k.procs c).tf + 8 * tfA0 + 8

/-- What `user_return` reads from a record. -/
structure SameReturn (p p' : Proc) : Prop where
  tf : p'.tf = p.tf
  argc : p'.argc = p.argc
  argvPtr : p'.argvPtr = p.argvPtr

theorem SameReturn.refl (p : Proc) : SameReturn p p := ⟨rfl, rfl, rfl⟩

/-- The frames of process `c` are as they were, but for that word. -/
structure Framed (L : Layout) (k : Kernel) (c : Fin procsMax) (k' : Kernel) : Prop
    extends SameReturn (k.procs c) (k'.procs c) where
  mem : ∀ a, InFrame L k c a → ¬ResultWord k c a → k'.phys.mem a = k.phys.mem a

namespace Framed

theorem refl : Framed L k c k := ⟨.refl _, fun _ _ _ => rfl⟩

theorem trans (h : Framed L k c k') (h' : Framed L k' c k'') : Framed L k c k'' := by
  refine ⟨⟨h'.tf.trans h.tf, h'.argc.trans h.argc, h'.argvPtr.trans h.argvPtr⟩, fun a ha hw => ?_⟩
  have hin : InFrame L k' c a := by
    unfold InFrame
    rwa [h.tf]
  have hout : ¬ResultWord k' c a := by
    unfold ResultWord
    rwa [h.tf]
  exact (h'.mem a hin hout).trans (h.mem a ha hw)

theorem of_mem (hp : SameReturn (k.procs c) (k'.procs c)) (hm : k'.phys.mem = k.phys.mem) : Framed L k c k' :=
  ⟨hp, fun _ _ _ => by rw [hm]⟩

/-- The registers in the frame of the record. -/
theorem record (h : Framed L k c k') (hj : j ≠ 10) :
    loadFrame k'.phys.mem (k'.procs c).tf j = loadFrame k.phys.mem (k.procs c).tf j := by
  have hj' : (j : Nat) ≠ 10 := fun he => hj (Fin.ext he)
  rw [h.tf, loadFrame_apply, loadFrame_apply, tfWord, tfWord]
  refine congrArg _ (load64_congr fun x h1 h2 => h.mem x (.inr ?_) fun hx => ?_)
  · unfold frameSize
    omega
  · unfold ResultWord tfA0 at hx
    omega

/-- Those in the frame on the kernel stack. -/
theorem stack (h : Framed L k c k') (hp : ProcOk L k.phys F c (k.procs c)) (hj : j ≠ 10) :
    loadFrame k'.phys.mem (L.tfStackFrame c) j = loadFrame k.phys.mem (L.tfStackFrame c) j := by
  rcases hp.tf_cases with he | ⟨_, hpage⟩
  · rw [← he, ← h.record hj, h.tf]
  · have h1 := tfStackFrame_lt L c
    have h2 := hpage.ge
    rw [loadFrame_apply, loadFrame_apply, tfWord, tfWord]
    refine congrArg _ (load64_congr fun x h3 h4 => h.mem x (.inl ?_) fun hx => ?_)
    · unfold frameSize at *
      omega
    · unfold ResultWord at hx
      unfold frameSize at h1
      omega

end Framed

namespace Inv

variable (hk : k.Inv L F) (hl : k.Live c)
include hk hl

theorem tfPages_of_inFrame (ha : InFrame L k c a) : TfPages L k c (pageOf a) := by
  rcases ha with ⟨_, h2⟩ | ⟨h1, h2⟩
  · exact .inl (pageOf_lt (Nat.lt_of_lt_of_le h2 (tfStackFrame_lt L c)))
  · exact (hk.proc c hl).tf_page hl h1 h2

/-- A step that writes to free pages and to the address space of the process. -/
theorem framed_grows (hpt : (k.procs c).pageTable ≠ 0) (hg : Grows L o k.phys F k'.phys F' W)
    (hW : ∀ pg, W pg → InSpace k.phys.mem (k.procs c).pageTable pg) (hp : SameReturn (k.procs c) (k'.procs c)) :
    Framed L k c k' := by
  refine ⟨hp, fun a ha _ => ?_⟩
  have htp := hk.tfPages (hk.tfPages_of_inFrame hl ha)
  exact hg.mem a htp.1 fun hw => htp.2 c hl hpt (hW _ hw)

/-- A step that gives back pages that hold no trap frame of the process. -/
theorem framed_frees (hf : Frees L k.phys F k'.phys F' D fun _ => False) (hD : ∀ pg, k.Holds L c .tf pg → ¬D pg)
    (hp : SameReturn (k.procs c) (k'.procs c)) : Framed L k c k' := by
  refine ⟨hp, fun a ha _ => hf.mem a (fun hd => ?_) id⟩
  rcases hk.tfPages_of_inFrame hl ha with hlow | hh
  · have := (hf.was _ hd).1.ge
    omega
  · exact hD _ hh hd

end Inv

/-! ## The calls -/

theorem setProc_framed {i : Fin procsMax} {p : Proc} (hp : SameReturn (k.procs i) p) :
    Framed L k c (k.setProc i p) := by
  refine .of_mem ?_ rfl
  by_cases hc : c = i
  · subst hc
    rwa [setProc_procs_self]
  · rw [setProc_procs_of_ne hc]
    exact .refl _

theorem setInbox_framed {i : Fin procsMax} {msg : IpcMessage} : Framed L k c (k.setInbox i msg) :=
  setProc_framed ⟨rfl, rfl, rfl⟩

theorem sysExit_framed (code : Nat) : Framed L k c (k.sysExit code) := setProc_framed ⟨rfl, rfl, rfl⟩

theorem yield_framed : Framed L k c (k.yield L).1 := by
  obtain ⟨st, hr⟩ := yield_record L k c
  exact .of_mem (by rw [hr]; exact ⟨rfl, rfl, rfl⟩) (by rw [yield_phys])

/-- `forkFrames` writes the result to the parent's frame, and nothing else there. -/
theorem forkFrames_parent {m : Mem} {tf tf' pid : Nat} (h : ¬(tf + 8 * tfA0 ≤ a ∧ a < tf + 8 * tfA0 + 8))
    (h' : ¬(tf' ≤ a ∧ a < tf' + frameSize)) : forkFrames m tf tf' pid a = m a := by
  have hset : ∀ {m : Mem} {l w : Nat}, l < 32 → setTfWord m tf' l w a = m a := fun hl =>
    store64_outside (by unfold frameSize at h'; omega)
  have hres : ∀ {m : Mem} {w : Nat}, setTfWord m tf tfA0 w a = m a := store64_outside h
  unfold forkFrames
  rw [hset (by decide), hset (by decide), hres, hset (by decide), memcpy_outside h']

namespace Running

variable (h : Running L k F c)
include h

theorem userWrites_framed (hw : UserWrites k c k') : Framed L k c k' :=
  h.toInv.framed_grows h.live h.pageTable (hw.grows (o := 0) h.toInv h.live h.pageTable) (fun _ hpg => hpg.inSpace)
    (by rw [hw.procs]; exact .refl _)

theorem sysSbrk_framed {inc : Int} (hs : k.sysSbrk L inc = .ok (ret, k')) : Framed L k c k' := by
  have hcur := h.cur
  have hlc : k.Live k.cur := hcur.symm ▸ h.live
  obtain ⟨_, F', hsb⟩ := sysSbrk_spec h.toInv hlc (h.full _ hlc) hs
  refine h.toInv.framed_grows h.live h.pageTable hsb.extend.grows (fun pg hpg => ?_) ?_
  · rw [hcur] at hpg
    exact hpg.inSpace
  · rw [hsb.state, hcur, setProc_procs_self]
    exact ⟨rfl, rfl, rfl⟩

theorem readLoop_framed {buf i n : Nat} (hb : buf + i + n ≤ kernelBase)
    (hs : k.readLoop L buf i n input = .ok (ret, k', input')) : Framed L k c k' := by
  induction n generalizing k i input with
  | zero =>
      simp only [readLoop, Except.ok.injEq, Prod.mk.injEq] at hs
      rw [← hs.2.1]
      exact .refl
  | succ n ih =>
      cases input with
      | nil => cases hs
      | cons b input =>
          simp only [readLoop, bind_eq_ok] at hs
          obtain ⟨k₁, h1, hs⟩ := hs
          have hw := storeU8_spec h.toInv h.live h.pageTable h.active (by omega) h1
          have hr := h.userWrites hw
          refine (h.userWrites_framed hw).trans ?_
          split at hs
          · simp only [Except.ok.injEq, Prod.mk.injEq] at hs
            rw [← hs.2.1]
            exact .refl
          · have hy := yield_framed (L := L) (k := k₁) (c := c)
            have hsw := yield_switched (k := k₁) (L := L)
            split at hs
            · rename_i k₂ hk
              simp only [Except.ok.injEq, Prod.mk.injEq] at hs
              rw [hk] at hy
              rw [← hs.2.1]
              exact hy
            · rename_i k₂ hk
              rw [hk] at hsw hy
              have hstay := hr.yield_stay (of_decide_eq_false hsw.symm)
              rw [hk] at hstay
              exact hy.trans (ih hstay (by omega) hs)

/-- `sys_fork` stores its result to the frame of the caller's record. -/
theorem sysFork_framed (hs : k.sysFork L = .ok (ret, k')) : Framed L k c k' := by
  have hcur := h.cur
  have hlc : k.Live k.cur := hcur.symm ▸ h.live
  have hpt := h.full _ hlc
  rcases sysFork_spec h.toInv hlc hpt hs with ⟨_, _, rfl⟩ | ⟨i, tf, root, F', _, hf⟩
  · exact .refl
  have hci : c ≠ i := fun he => freeSlot_unused hf.slot (he ▸ h.live)
  refine ⟨by rw [hf.state, setProc_procs_of_ne hci]; exact .refl _, fun a ha hw => ?_⟩
  rw [sysFork_eq hf.slot hlc] at hs
  simp only [bind_eq_ok, Prod.exists, Except.ok.injEq, Prod.mk.injEq] at hs
  obtain ⟨tf, s₁, h1, root, s₂, h2, s₃, h3, s₄, h4, -, rfl⟩ := hs
  have hg0 : Grows L k.owner k.phys F (k.forkStack L i) F (TfPages L k k.cur) := forkStack_grows h.toInv
  obtain ⟨F₁, hb⟩ := allocPages_one hg0.ok hg0.track h1
  have htf := hg0.avail _ hb.was_one
  have hg1 := hg0.trans hb.grows fun _ h => h.elim
  have hg2 := forkFrames_grows (i + 1) h.toInv hlc hg1 htf hb.not_avail
  obtain ⟨F', hn, -⟩ := forkSpace_spec h.toInv hlc hpt hg2 h2 h3 h4
  -- no page of a trap frame is free, so none is given to the child
  have htp := h.toInv.tfPages (h.toInv.tfPages_of_inFrame h.live ha)
  have hchild : ¬(tf ≤ a ∧ a < tf + frameSize) := fun hx => htp.1 (by
    rw [(pageOf_eq_iff (h.ok.isPage htf).aligned).mpr ⟨hx.1, by unfold frameSize at hx; omega⟩]
    exact htf)
  have hstack : ¬(L.procAddr i + tfStackStart ≤ a ∧ a < L.tfTop i) := by
    rintro ⟨h3, h4⟩
    rcases ha with ⟨h5, h6⟩ | ⟨h5, h6⟩
    · exact tfStackFrame_apart hci h5 h6 ⟨h3, by rw [stack_add]; exact h4⟩
    · rcases h.toInv.frame_cases h.live h5 h6 with ⟨h7, h8⟩ | ⟨_, _, h7⟩
      · exact tfStackFrame_apart hci h7 h8 ⟨h3, by rw [stack_add]; exact h4⟩
      · have := L.tfTop_le i
        omega
  have hres : ¬((k.procs k.cur).tf + 8 * tfA0 ≤ a ∧ a < (k.procs k.cur).tf + 8 * tfA0 + 8) := by
    rw [hcur]
    exact hw
  calc s₄.mem a = forkFrames s₁.mem (k.procs k.cur).tf tf (i + 1) a :=
        hn.grows.mem a (fun hav => htp.1 (hg2.avail _ hav)) id
    _ = s₁.mem a := forkFrames_parent hres hchild
    _ = (k.forkStack L i).mem a := hb.grows.mem a (fun hav => htp.1 (hg0.avail _ hav)) id
    _ = k.phys.mem a := memset_outside (by rwa [stack_add])

theorem sysWait_framed {status : Nat} (hst : StatusOk status)
    (hc : ∀ z, k.findZombie = some z → ChildrenExeced L k z) (hs : k.sysWait L status = .ok (ret, k')) :
    Framed L k c k' := by
  rcases h.sysWait_cases hst hc hs with ⟨_, _, hy⟩ | ⟨z, k₁, F', -, -, hreap⟩
  · have hf := yield_framed (L := L) (k := k) (c := c)
    rwa [hy] at hf
  · have hr := h.userWrites hreap.stored
    refine (h.userWrites_framed hreap.stored).trans
      (hr.toInv.framed_frees hr.live hreap.reaped.frees (fun pg => hreap.held c _ pg hreap.ne) ?_)
    rw [hreap.procs, Function.update_of_ne hreap.ne, hreap.stored.procs]
    exact .refl _

omit h in
theorem sysIpcSend_framed {destPid : Int} {buf size : Nat} (hs : k.sysIpcSend destPid buf size = .ok (ret, k')) :
    Framed L k c k' := by
  unfold sysIpcSend at hs
  split at hs
  · exact (Prod.mk.inj (Except.ok.inj hs)).2 ▸ .refl
  split at hs
  · cases hs
  split at hs
  · exact (Prod.mk.inj (Except.ok.inj hs)).2 ▸ .refl
  split at hs
  · exact (Prod.mk.inj (Except.ok.inj hs)).2 ▸ .refl
  · simp only [bind_eq_ok, Except.ok.injEq, Prod.mk.injEq] at hs
    obtain ⟨bytes, _, _, rfl⟩ := hs
    exact setInbox_framed

theorem sysIpcRecv_framed {buf maxSize senderPid : Nat} (hst : StatusOk senderPid)
    (hb : buf + min (k.procs c).inbox.size maxSize ≤ kernelBase)
    (hs : k.sysIpcRecv L buf maxSize senderPid = .ok (ret, k')) : Framed L k c k' := by
  unfold sysIpcRecv at hs
  rw [h.cur] at hs
  dsimp only at hs
  split at hs
  · exact (Prod.mk.inj (Except.ok.inj hs)).2 ▸ .refl
  · simp only [bind_eq_ok, Except.ok.injEq, Prod.mk.injEq] at hs
    obtain ⟨k₁, h1, k₂, h2, _, rfl⟩ := hs
    have hw1 := storeBytes_spec h.toInv h.live h.pageTable h.active (by simpa [IpcMessage.copied] using hb) h1
    have hr1 := h.userWrites hw1
    have hw2 := hr1.storeSender_spec hst h2
    exact (h.userWrites_framed hw1).trans ((hr1.userWrites_framed hw2).trans setInbox_framed)

/-- A call that is no successful `sys_exec` leaves the registers of its caller alone. -/
theorem handleSyscall_framed (hcare : k.Careful L c call)
    (hexec : ∀ filename argv argc, call = .exec filename argv argc → k.tarfsLookup filename fs = .ok none)
    (hs : k.handleSyscall L fs input now call = .ok (ret, k', input')) : Framed L k c k' := by
  cases call <;>
    simp only [Kernel.handleSyscall, bind_eq_ok, Prod.exists, Except.ok.injEq, Prod.mk.injEq] at hs
  case read fd buf len =>
    unfold sysRead at hs
    split at hs
    · simp only [Except.ok.injEq, Prod.mk.injEq] at hs
      exact hs.2.1 ▸ .refl
    · rename_i href
      exact h.readLoop_framed (by simpa using hcare.resolve_left (by simpa using href)) hs
  case yield =>
    obtain ⟨_, rfl, _⟩ := hs
    exact yield_framed
  case fork =>
    obtain ⟨_, _, hs, rfl, rfl, _⟩ := hs
    exact h.sysFork_framed hs
  case exec filename argv argc =>
    obtain ⟨_, _, hs, rfl, rfl, _⟩ := hs
    unfold sysExec at hs
    simp only [bind_eq_ok, hexec filename argv argc rfl, Except.ok.injEq] at hs
    obtain ⟨_, _, _, rfl, hs⟩ := hs
    exact (Prod.mk.inj (Except.ok.inj hs)).2 ▸ .refl
  case exit =>
    obtain ⟨_, rfl, _⟩ := hs
    exact sysExit_framed _
  case wait =>
    obtain ⟨_, _, hs, rfl, rfl, _⟩ := hs
    exact h.sysWait_framed hcare.1 hcare.2 hs
  case sbrk =>
    obtain ⟨_, _, hs, rfl, rfl, _⟩ := hs
    exact h.sysSbrk_framed hs
  case sysinfo =>
    obtain ⟨_, _, hs, rfl, rfl, _⟩ := hs
    exact h.userWrites_framed (h.copyToUser_served hs)
  case time =>
    obtain ⟨_, _, hs, rfl, rfl, _⟩ := hs
    exact h.userWrites_framed (h.copyToUser_served hs)
  case ipcSend =>
    obtain ⟨_, _, hs, rfl, rfl, _⟩ := hs
    exact sysIpcSend_framed hs
  case ipcRecv =>
    obtain ⟨_, _, hs, rfl, rfl, _⟩ := hs
    exact h.sysIpcRecv_framed hcare.2 hcare.1 hs
  case write =>
    obtain ⟨_, _, _, rfl, rfl, _⟩ := hs
    exact .refl
  case log =>
    obtain ⟨_, _, _, rfl, rfl, _⟩ := hs
    exact .refl
  case tarfsExists =>
    obtain ⟨_, _, rfl, rfl, _⟩ := hs
    exact .refl
  all_goals
    obtain ⟨rfl, rfl, _⟩ := hs
    exact .refl

end Running

end Kernel

end RiscvOs
