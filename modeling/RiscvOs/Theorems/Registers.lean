import RiscvOs.Theorems.Enter
import RiscvOs.Lemmas.Registers

/-!
# Registers over a trap

A process that is not switched away goes on with the registers of the trap, behind its `ecall` with the result.
One that has been switched away goes on at the instruction that trapped, and `user_return` has used six of its
registers.
-/

namespace RiscvOs

open Outcome Kernel Lts

variable {L : Layout} {fs : Initramfs} {k k' : Kernel} {F : List Nat} {c : Fin procsMax} {s s' s₀ s₁ : Machine}
  {t : Trap} {l l₀ : List Trap} {call : Call} {ret : SysRet} {ev : Table.Event} {input : List UInt8}
  {w sepc : BitVec 64} {r : Nat} {j : Fin 32}

/-- Without a new program, only `yield` leaves the process that calls. -/
theorem Effect.switched (h : Effect fs k call ret ev) (hret : ret = .switched)
    (hexec : ∀ filename argv argc, call = .exec filename argv argc → k.tarfsLookup filename fs = .ok none) :
    ev = .yield ∧ k.table.Switches := by
  cases h with
  | yield =>
      split at hret
      · exact ⟨rfl, ‹_›⟩
      · cases hret
  | readLeft h => exact ⟨rfl, h⟩
  | waitLeft _ h => exact ⟨rfl, h⟩
  | exec hf => cases (hexec _ _ _ rfl).symm.trans hf
  | _ => cases hret

namespace Machine

/-- The trap loads no program. -/
def SameProgram (L : Layout) (fs : Initramfs) (s : Machine) (t : Trap) : Prop :=
  ∀ filename argv argc, t.request = some (.exec filename argv argc) →
    (s.inKernel L t).tarfsLookup filename fs = .ok none

/-- The process goes on where the trap has found it, with all its registers, or behind its `ecall` with the result
of the call. -/
inductive Preserved (L : Layout) (fs : Initramfs) (s : Machine) (t : Trap) (s' : Machine) : Prop
  | timer (h : t.cause = .timer) (hu : s'.user = t.frame)
  | call {call : Call} {r : Nat} {k' : Kernel} {input : List UInt8} (h : t.request = some call)
      (hs : (s.inKernel L t).handleSyscall L fs s.input t.now call = .ok (.value r, k', input))
      (hu : s'.user = Function.update (Function.update t.frame 10 (BitVec.ofNat 64 r)) tfPc (t.frame tfPc + 4))

/-- The process goes on where the trap has found it, with the registers that `user_return` leaves. -/
structure SwitchedBack (L : Layout) (s : Machine) (c : Fin procsMax) (t : Trap) (s' : Machine) : Prop where
  frame : ∀ j, ¬Lost j → s'.user j = t.frame j
  t0 : s'.user tfT0 = t.frame tfPc
  t1 : ∃ w, s'.user tfT1 = userReturnSstatus w
  t2 : s'.user tfT2 = BitVec.ofNat 64 (L.procAddr c)
  t3 : s'.user tfT3 = BitVec.ofNat 64 (L.procAddr c + argvPtrOffset)
  a0 : s'.user 10 = BitVec.ofNat 64 ((s.kernel.procs c).argc % 2 ^ 32).toNat
  a1 : s'.user tfA1 = BitVec.ofNat 64 (s.kernel.procs c).argvPtr

/-! ## Through the end of `trap_vector` -/

theorem Runs.stack_frame (hruns : s.Runs L t) (hr : Running L s.kernel F c) :
    loadFrame (s.inKernel L t).phys.mem (L.tfStackFrame c) = t.frame := by
  have hw : Running L (s.atTrap t) F c := hr.userWrites (hruns.userWrites hr)
  unfold Machine.inKernel
  rw [hr.cur]
  exact (enter_frames hw.procOk).1

/-- Nothing has been stored to the frame on the kernel stack when the registers are loaded from it. -/
theorem goOn_user (hruns : s.Runs L t) (hr : Running L s.kernel F c) (hf : Framed L (s.inKernel L t) c k') :
    (goOn L (setResult L k' c r) c input w sepc).user =
      Function.update (Function.update t.frame 10 (BitVec.ofNat 64 r)) tfPc sepc := by
  show epilogue L (setTfWord k'.phys.mem (L.tfStackFrame c) tfA0 r) c sepc = _
  unfold epilogue
  rw [loadFrame_setTfWord (by decide)]
  refine congrArg (fun f : Frame => Function.update f tfPc sepc) (funext fun j => ?_)
  show Function.update _ (10 : Fin 32) _ j = _
  by_cases hj : j = 10
  · rw [hj, Function.update_self, Function.update_self]
  · rw [Function.update_of_ne hj, Function.update_of_ne hj, hf.stack (hruns.inKernel hr).procOk hj,
      hruns.stack_frame hr]

/-- The timer comes back without a result. -/
theorem goOn_timer (hruns : s.Runs L t) (hr : Running L s.kernel F c)
    (hm : k'.phys.mem = (s.inKernel L t).phys.mem) :
    (goOn L k' c input w (t.frame tfPc)).user = t.frame := by
  show epilogue L k'.phys.mem c (t.frame tfPc) = _
  rw [epilogue, hm, hruns.stack_frame hr, Function.update_eq_self]

/-! ## Both ways back -/

/-- A trap that loads no program ends at the end of `trap_vector`, or in `user_return` of another process with the
registers in the record. -/
theorem Step.ways (hr : Running L s.kernel F c) (hfs : ∀ f ∈ fs, f.2.Linked) (h : s.CarefulStep L fs t s₁)
    (hexec : s.SameProgram L fs t) :
    (s₁.kernel.cur = c ∧ Preserved L fs s t s₁) ∨
      (s₁.kernel.cur ≠ c ∧ s₁.kernel.Live c ∧ Framed L (s.inKernel L t) c s₁.kernel) := by
  obtain ⟨⟨hruns, htrap⟩, hcare⟩ := h
  have hk := hruns.inKernel hr
  have hcur := hr.cur
  have hleft : ∀ k' : Kernel, k'.table = (s.inKernel L t).table.yield → (s.inKernel L t).table.Switches →
      k'.cur ≠ c ∧ k'.Live c := fun k' ht hsw => by
    refine ⟨?_, ?_⟩
    · show k'.table.current ≠ c
      rw [ht, Table.current_yield, ← show (s.inKernel L t).table.current = c from hk.cur]
      exact hsw
    · show (k'.table.slots c).state ≠ .unused
      rw [ht, ne_eq, ((s.inKernel L t).table.yield_rescheduled c).state_iff (by simp) (by simp)]
      exact hk.live
  unfold trap at htrap
  cases hcause : t.cause with
  | timer =>
      simp only [hcause, Except.ok.injEq, yield_switched, decide_eq_true_eq] at htrap
      split at htrap
      · rename_i hsw
        obtain ⟨hne, hlive⟩ := hleft _ yield_table hsw
        rw [← htrap]
        exact .inr ⟨hne, hlive, yield_framed⟩
      · rename_i hsw
        rw [hcur] at htrap
        rw [← htrap]
        exact .inl ⟨(hk.yield_stay hsw).cur, .timer hcause (goOn_timer hruns hr (by rw [yield_phys]))⟩
  | ecall =>
      simp only [hcause] at htrap
      split at htrap
      · cases htrap
      rename_i call hcall
      simp only [bind_eq_ok, Prod.exists] at htrap
      obtain ⟨ret, k', input, hsys, htrap⟩ := htrap
      have hreq : t.request = some call := by rw [Trap.request, hcause, hcall]
      have hcc := hcare call hreq
      rw [hcur] at hcc
      have hlook : ∀ filename argv argc, call = .exec filename argv argc →
          (s.inKernel L t).tarfsLookup filename fs = .ok none := fun filename argv argc he =>
        hexec filename argv argc (by rw [hreq, he])
      have hf := hk.handleSyscall_framed hcc hlook hsys
      cases ret with
      | switched =>
          simp only [Except.ok.injEq] at htrap
          obtain ⟨ev, he, ht⟩ := handleSyscall_effect hsys
          obtain ⟨rfl, hsw⟩ := he.switched rfl hlook
          obtain ⟨hne, hlive⟩ := hleft k' ht hsw
          rw [← htrap]
          exact .inr ⟨hne, hlive, hf⟩
      | value a0 =>
          obtain ⟨F', c', hr', hval⟩ := (hk.handleSyscall_served hfs hcc hsys).running
          obtain rfl := hval a0 rfl
          simp only [Except.ok.injEq, hcur] at htrap
          rw [← htrap]
          exact .inl ⟨hr'.cur, .call hreq hsys (goOn_user hruns hr hf)⟩

/-- The registers in the record are those of the trap when `user_return` loads them. -/
theorem Step.switchedBack (hr : Running L s.kernel F c) (hruns : s.Runs L t) (hne : s₁.kernel.cur ≠ c)
    (hf : Framed L (s.inKernel L t) c s₁.kernel) (hl : s₁.kernel.Live c) (hfs : ∀ f ∈ fs, f.2.Linked)
    (hr₁ : ∃ F c, Running L s₁.kernel F c) (hres : s₁.Resumes L fs c l s') : SwitchedBack L s c t s' := by
  obtain ⟨⟨F', hr'⟩, hkept, hback⟩ := hres.kept hfs hr₁ hl
  obtain ⟨w, hw⟩ := hback.resolve_left fun he => hne (by rw [← he.2]; exact hr'.cur)
  have huser : s'.user = s'.kernel.userReturn L w := by rw [hw]; rfl
  have hframe : ∀ j, j ≠ 10 → loadFrame s'.kernel.phys.mem (s'.kernel.procs c).tf j = t.frame j := fun j hj => by
    rw [hkept.loadFrame, hf.record hj]
    exact congrFun (hruns.inKernel_frame hr) j
  refine ⟨fun j hj => ?_, ?_, ⟨w, by rw [huser]; rfl⟩, ?_, ?_, ?_, ?_⟩
  · rw [huser, userReturn_kept hj, hr'.cur]
    exact hframe j fun he => hj (by unfold Lost; simp [he])
  · rw [huser, ← hframe tfPc (by decide), ← hr'.cur]
    rfl
  · rw [huser, ← hr'.cur]
    rfl
  · rw [huser, ← hr'.cur]
    rfl
  · rw [huser, userReturn_a0, hr'.cur, hkept.argc, hf.argc]
    rfl
  · rw [huser, userReturn_a1, hr'.cur, hkept.argvPtr, hf.argvPtr]
    rfl

end Machine

end RiscvOs
