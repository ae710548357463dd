import RiscvOs.Theorems.Processes
import RiscvOs.Theorems.Yield

/-!
# The first instruction of a program

`sys_exec` writes the new program's registers to the frame of the trap that it serves. Where its `yield` comes
back, `handle_syscall` and the end of `trap_vector` finish that trap: they put the result of the call in `a0`, and
the program goes on behind the old `ecall`.
-/

namespace RiscvOs

open ByteMem Outcome Kernel Lts

variable {L : Layout} {fs : Initramfs} {k k' : Kernel} {F : List Nat} {c : Fin procsMax} {s s' s₀ s₁ : Machine}
  {t : Trap} {l l₀ : List Trap} {filename argv sp argvPtr : Nat} {argc : Int} {ret : SysRet}

/-! ## The frame of a new program -/

/-- The registers that `sys_exec` makes for a program. -/
def execRegs (L : Layout) (sp : Nat) : Frame := fun j =>
  if j = Fin.ofNat 32 tfSp then BitVec.ofNat 64 sp
  else if j = Fin.ofNat 32 tfRa then BitVec.ofNat 64 L.userReturn
  else if j = tfPc then BitVec.ofNat 64 userBase
  else 0

theorem loadFrame_memset (m : Mem) (a : Nat) : loadFrame (memset m a 0 frameSize) a = fun _ => 0 := by
  funext j
  rw [loadFrame_apply, tfWord, load64_memset_zero (Nat.le_add_right _ _) (by unfold frameSize; omega)]
  rfl

theorem callOf_exec {f : Frame} (h : callOf f = some (.exec filename argv argc)) : argc = ((f 12).setWidth 32).toInt := by
  unfold callOf at h
  dsimp only at h
  split at h <;> first
    | exact (Call.exec.inj (Option.some.inj h)).2.2.symm
    | cases h

namespace Kernel

/-- The stack pointer and the `argv` of the program that `sys_exec` loads, if there is one. -/
def execStack (L : Layout) (fs : Initramfs) (k : Kernel) (progname argv : Nat) (argc : Int) :
    Except Halt (Option (Nat × Nat)) := do
  let prognameBuf ← k.loadStr progname (procNameMaxLen - 1)
  match ← k.tarfsLookup progname fs with
  | none => .ok none
  | some elf => do
    let (_, _, sp, argvPtr, _) ← k.execArguments L elf prognameBuf argv argc
    .ok (some (sp, argvPtr))

/-- Process `c` has a new program, which it has not begun. -/
structure Entry (L : Layout) (k : Kernel) (c : Fin procsMax) (sp argvPtr : Nat) (argc : Int) : Prop where
  frame : loadFrame k.phys.mem (k.procs c).tf = execRegs L sp
  tf : (k.procs c).tf = L.tfStackFrame c
  argc : (k.procs c).argc = argc
  argvPtr : (k.procs c).argvPtr = argvPtr

theorem entry_startProgram {argvBuf : Nat} (hcur : k.cur = c) (htf : (k.procs c).tf = L.tfStackFrame c) :
    Entry L (k.startProgram L c argvBuf sp argvPtr argc) c sp argvPtr argc := by
  have hcur' : (k.execFrame L c argvBuf sp).cur = c := hcur
  have hself : (k.startProgram L c argvBuf sp argvPtr argc).procs c =
      { k.procs c with argc := argc, argvPtr := argvPtr } := by
    unfold startProgram
    dsimp only
    rw [hcur', setProc_procs_self]
    rfl
  refine ⟨?_, by rw [hself]; exact htf, by rw [hself], by rw [hself]⟩
  rw [hself]
  show loadFrame (setTfWord (setTfWord (setTfWord (memset (k.phys.freePage argvBuf).mem (k.procs c).tf 0 frameSize)
    (k.procs c).tf tfEpc userBase) (k.procs c).tf tfRa L.userReturn) (k.procs c).tf tfSp sp) (k.procs c).tf = _
  rw [loadFrame_setTfWord (by decide), loadFrame_setTfWord (by decide), loadFrame_setTfWord (by decide),
    loadFrame_memset]
  funext j
  simp only [Function.update_apply, execRegs]
  rfl

theorem Entry.kept (h : Entry L k c sp argvPtr argc) (hk : Kept k k' c) : Entry L k' c sp argvPtr argc :=
  ⟨by rw [hk.loadFrame, h.frame], by rw [hk.tf, h.tf], by rw [hk.argc, h.argc], by rw [hk.argvPtr, h.argvPtr]⟩

/-- After `sys_exec` of a program that exists, the process has the frame and the record of the new program. -/
theorem Running.sysExec_entry (h : Running L k F c) (hfs : ∀ f ∈ fs, f.2.Linked)
    (hset : k.execStack L fs filename argv argc = .ok (some (sp, argvPtr)))
    (hs : k.sysExec L fs filename argv argc = .ok (ret, k')) :
    Entry L k' c sp argvPtr argc ∧ ret = (if (k.table.setState c .running).Switches then .switched else .value 0) ∧
      k'.table = k.table.exec ∧ (argc ≤ 1 → argvPtr = 0) := by
  unfold sysExec at hs
  unfold execStack at hset
  simp only [bind_eq_ok] at hs hset
  obtain ⟨buf, hbuf, found, hfound, hs⟩ := hs
  obtain ⟨buf', hbuf', found', hfound', hset⟩ := hset
  obtain rfl := Except.ok.inj (hbuf.symm.trans hbuf')
  obtain rfl := Except.ok.inj (hfound.symm.trans hfound')
  cases found with
  | none => cases hset
  | some elf =>
      simp only [bind_eq_ok, Prod.exists, Except.ok.injEq, Option.some.injEq, Prod.mk.injEq] at hset
      obtain ⟨argvBuf', ep', sp', argvPtr', k₁', harg', rfl, rfl⟩ := hset
      obtain ⟨f, hf, rfl⟩ := tarfsLookup_mem hfound
      obtain ⟨argvBuf, sp, argvPtr, k₁, F₁, F₂, harg, he₁, he₂, rfl, rfl⟩ :=
        execElf_steps h.toValid h.current h.live (hfs f hf) hs
      rw [harg] at harg'
      simp only [Except.ok.injEq, Prod.mk.injEq] at harg'
      obtain ⟨rfl, rfl, rfl, rfl, rfl⟩ := harg'
      refine ⟨(entry_startProgram (cur_eq he₁.current) he₁.tf).kept (yield_kept he₂.live), ?_, (execElf_table hs).1, fun hargc => ?_⟩
      · rw [(execElf_table hs).2, h.cur]
      · unfold execArguments at harg
        simp only [bind_eq_ok, Prod.exists, Except.ok.injEq, Prod.mk.injEq] at harg
        obtain ⟨_, _, _, _, _, _, _, _, _, _, _, _, _, hpush, -, -, -, rfl, -⟩ := harg
        unfold pushArgv at hpush
        rw [if_neg (by omega)] at hpush
        simp only [Except.ok.injEq, Prod.mk.injEq] at hpush
        exact hpush.2.1.symm

end Kernel

/-! ## The first instruction -/

namespace Machine

/-- The next instruction of the process is the first one of its program, with the stack pointer and the arguments
that `sys_exec` has set up. -/
structure Enters (s' : Machine) (sp : Nat) (argc : Int) (argvPtr : Nat) : Prop where
  pc : s'.user tfPc = BitVec.ofNat 64 userBase
  sp : s'.user (Fin.ofNat 32 tfSp) = BitVec.ofNat 64 sp
  argc : (s'.user 10).setWidth 32 = BitVec.ofInt 32 argc
  argv : s'.user tfA1 = BitVec.ofNat 64 argvPtr

/-- With `user_return` the program begins as it should. -/
theorem enters_resume (h : Entry L s'.kernel s'.kernel.cur sp argvPtr argc)
    (hs : ∃ w, s'.user = s'.kernel.userReturn L w) : s'.Enters sp argc argvPtr := by
  obtain ⟨w, hw⟩ := hs
  have hkeep : ∀ j, ¬Lost j → s'.user j = execRegs L sp j := fun j hj => by
    rw [hw, userReturn_kept hj, h.frame]
  refine ⟨by rw [hkeep _ (by decide)]; rfl, by rw [hkeep _ (by decide)]; rfl, ?_, ?_⟩
  · rw [hw, userReturn_a0, h.argc]
    apply BitVec.eq_of_toNat_eq
    rw [BitVec.toNat_setWidth, BitVec.toNat_ofNat, BitVec.toNat_ofInt]
    omega
  · rw [hw, userReturn_a1, h.argvPtr]

/-- With the end of `trap_vector` it goes on behind the `ecall`, with 0 in `a0` and `a1`. -/
theorem enters_goOn_iff (h : Entry L k c sp argvPtr argc) {input : List UInt8} {sstatus sepc : BitVec 64} :
    (goOn L (setResult L k c 0) c input sstatus sepc).Enters sp argc argvPtr ↔
      sepc = BitVec.ofNat 64 userBase ∧ BitVec.ofInt 32 argc = 0 ∧ BitVec.ofNat 64 argvPtr = 0 := by
  have hreg : ∀ j, j ≠ tfPc → (goOn L (setResult L k c 0) c input sstatus sepc).user j =
      Function.update (execRegs L sp) (Fin.ofNat 32 tfA0) 0 j := fun j hj => by
    show epilogue L (setTfWord k.phys.mem (L.tfStackFrame c) tfA0 0) c sepc j = _
    rw [epilogue, Function.update_of_ne hj, loadFrame_setTfWord (by decide), ← h.tf, h.frame]
    rfl
  have hsp := hreg (Fin.ofNat 32 tfSp) (by decide)
  have ha0 := hreg 10 (by decide)
  have ha1 := hreg tfA1 (by decide)
  have h10 : Function.update (execRegs L sp) (Fin.ofNat 32 tfA0) 0 10 = 0 := rfl
  have h11 : Function.update (execRegs L sp) (Fin.ofNat 32 tfA0) 0 tfA1 = 0 := rfl
  constructor
  · rintro ⟨hpc, -, hargc, hargv⟩
    rw [goOn_pc] at hpc
    rw [ha0, h10] at hargc
    rw [ha1, h11] at hargv
    exact ⟨hpc, hargc.symm, hargv.symm⟩
  · rintro ⟨hpc, hargc, hargv⟩
    refine ⟨by rw [goOn_pc, hpc], by rw [hsp]; rfl, ?_, ?_⟩
    · rw [ha0, h10, hargc]
      rfl
    · rw [ha1, h11, hargv]

/-- What a `sys_exec` of a program that exists does in a trap. -/
theorem Step.exec_entry (hfs : ∀ f ∈ fs, f.2.Linked) (hr : Running L s.kernel F c) (h : s.Step L fs t s₁)
    (hreq : t.request = some (.exec filename argv argc))
    (hset : (s.inKernel L t).execStack L fs filename argv argc = .ok (some (sp, argvPtr))) :
    (argc ≤ 1 → argvPtr = 0) ∧
      (if (s.kernel.table.setState c .running).Switches then
        Entry L s₁.kernel c sp argvPtr argc ∧ s₁.kernel.Live c ∧ s₁.kernel.cur ≠ c
      else ∃ k input w, Entry L k c sp argvPtr argc ∧ k.cur = c ∧
        s₁ = goOn L (setResult L k c 0) c input w (t.frame tfPc + 4)) := by
  obtain ⟨hruns, htrap⟩ := h
  have hk := hruns.inKernel hr
  obtain ⟨hcause, hcall⟩ := Trap.request_ecall hreq
  unfold trap at htrap
  simp only [hcause, hcall, Kernel.handleSyscall, bind_eq_ok, Prod.exists, Except.ok.injEq, Prod.mk.injEq] at htrap
  obtain ⟨ret, k', input, ⟨ret', k'', hexec, rfl, rfl, rfl⟩, htrap⟩ := htrap
  obtain ⟨hentry, hret, htab, hptr⟩ := hk.sysExec_entry hfs hset hexec
  rw [inKernel_table (by rw [hr.current]; rfl)] at hret htab
  have hcur : k''.cur = (s.kernel.table.setState c .running).preempted.next := by
    rw [← Table.current_yield]
    show k''.table.current = _
    rw [htab, Table.exec, show s.kernel.table.current = c from hr.cur]
  have hself : (s.kernel.table.setState c .running).current = c := hr.cur
  refine ⟨hptr, ?_⟩
  split
  · rename_i hsw
    rw [if_pos hsw] at hret
    subst hret
    simp only [Except.ok.injEq] at htrap
    rw [← htrap]
    refine ⟨hentry, ?_, fun he => hsw ?_⟩
    · have hw := Table.exec_wakes (t := s.kernel.table)
      rw [← htab, show s.kernel.table.current = c from hr.cur] at hw
      show (k''.table.slots c).state ≠ .unused
      rcases hw with hw | hw <;> rw [hw] <;> simp
    · rw [hself, ← hcur]
      exact he
  · rename_i hsw
    rw [if_neg hsw] at hret
    subst hret
    simp only [Except.ok.injEq, hr.cur] at htrap
    refine ⟨_, _, _, hentry, ?_, htrap.symm⟩
    rw [hcur, not_not.mp hsw, hself]

end Machine

/-- `sys_exec` has succeeded, so there is a stack. -/
theorem Kernel.exists_execStack {r : SysRet × Kernel} {elf : Elf} (hl : k.tarfsLookup filename fs = .ok (some elf))
    (h : k.sysExec L fs filename argv argc = .ok r) :
    ∃ sp argvPtr, k.execStack L fs filename argv argc = .ok (some (sp, argvPtr)) := by
  unfold sysExec at h
  simp only [bind_eq_ok, hl, Except.ok.injEq] at h
  obtain ⟨buf, hbuf, _, rfl, h⟩ := h
  dsimp only at h
  rw [execElf_eq] at h
  simp only [bind_eq_ok, Prod.exists] at h
  obtain ⟨argvBuf, ep, sp, argvPtr, k₁, harg, -⟩ := h
  unfold execStack
  simp only [hbuf, ok_bind, hl, harg]
  exact ⟨sp, argvPtr, rfl⟩

/-- The shell loads the shell's program, and no other process can run. -/
theorem Machine.exists_exec : ∃ (s s₁ : Machine) (t : Trap) (sp argvPtr : Nat), s.Start Layout.kernelMap tinyFs ∧
    s.Step Layout.kernelMap tinyFs t s₁ ∧ t.request = some (.exec Machine.dataVa 0 0) ∧
      (s.inKernel Layout.kernelMap t).execStack Layout.kernelMap tinyFs Machine.dataVa 0 0 =
        .ok (some (sp, argvPtr)) ∧
      ¬(s.kernel.table.setState s.kernel.cur .running).Switches ∧ t.frame tfPc = BitVec.ofNat 64 userBase := by
  obtain ⟨s, F, hstart, -, hfree, hboot, hroom⟩ := Machine.exists_shell Layout.kernelMap []
  obtain ⟨t, s₁, hs, hcause, hframe, -, -, hfile, r, hr⟩ := hfree.exec (hboot.heap 1 hboot.live_shell)
    (Nat.le_trans (by decide) hroom) [] 0 (Nat.zero_le 1) rfl
  obtain ⟨sp, argvPtr, hset⟩ := Kernel.exists_execStack hfile hr
  refine ⟨s, s₁, t, sp, argvPtr, hstart, hs, ?_, hset, ?_, ?_⟩
  · rw [Trap.request, hcause, hframe]
    rfl
  · rw [hfree.running.cur, hstart.table]
    decide
  · rw [hframe, Machine.callFrame_pc]

end RiscvOs
