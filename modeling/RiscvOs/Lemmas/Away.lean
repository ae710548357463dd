import RiscvOs.Lemmas.Others

/-!
# Processes that are away

A process that has been switched away keeps its registers and its memory until it is the current one again,
and then goes on through `user_return`.
-/

namespace RiscvOs

open ByteMem Outcome Kernel Lts

variable {L : Layout} {fs : Initramfs} {k k' : Kernel} {F : List Nat} {i c : Fin procsMax} {s s' s₀ : Machine}
  {t : Trap} {l : List Trap} {w pc : BitVec 64} {j : Fin 32} {f : Frame}

/-! ## Registers after `user_return` -/

/-- The registers that `user_return` uses for itself or for the arguments of a program. -/
def Lost (j : Fin 32) : Prop := j = tfT0 ∨ j = tfT1 ∨ j = tfT2 ∨ j = tfT3 ∨ j = 10 ∨ j = tfA1

instance (j : Fin 32) : Decidable (Lost j) := inferInstanceAs (Decidable (_ ∨ _))

theorem userReturn_kept (hj : ¬Lost j) : k.userReturn L w j = loadFrame k.phys.mem (k.procs k.cur).tf j := by
  unfold Lost at hj
  push Not at hj
  obtain ⟨h0, h1, h2, h3, h4, h5⟩ := hj
  have h4' : j ≠ Fin.ofNat 32 tfA0 := h4
  simp only [userReturn, h0, h1, h2, h3, h4', h5, ↓reduceIte]

theorem userReturn_a0 : k.userReturn L w 10 = BitVec.ofNat 64 ((k.procs k.cur).argc % 2 ^ 32).toNat := rfl

theorem userReturn_a1 : k.userReturn L w tfA1 = BitVec.ofNat 64 (k.procs k.cur).argvPtr := rfl

namespace Machine

/-- A step whose call is careful. -/
def CarefulStep (L : Layout) (fs : Initramfs) (s : Machine) (t : Trap) (s' : Machine) : Prop :=
  s.Step L fs t s' ∧ s.Careful L t

/-- Others run until process `c`, which is not freed in between, is the current one again. -/
def Resumes (L : Layout) (fs : Initramfs) (c : Fin procsMax) (s : Machine) (l : List Trap) (s' : Machine) : Prop :=
  Run (fun s t s' => s.CarefulStep L fs t s' ∧ s.kernel.cur ≠ c ∧ s'.kernel.Live c) s l s' ∧ s'.kernel.cur = c

theorem CarefulStep.running (hfs : ∀ f ∈ fs, f.2.Linked) (hr : ∃ F c, Running L s.kernel F c)
    (h : s.CarefulStep L fs t s') : ∃ F c, Running L s'.kernel F c := by
  obtain ⟨F, c, hr⟩ := hr
  exact (h.1.served hfs hr h.2).running

theorem Start.running (hfs : ∀ f ∈ fs, f.2.Linked) (h : s.Start L fs) : ∃ F c, Running L s.kernel F c := by
  obtain ⟨m, hm⟩ := h.kernel
  obtain ⟨F, hb, _⟩ := kernelMain_booted hfs hm
  exact ⟨F, 1, hb.running⟩

/-- In every state of a careful run some process runs, and the state is well formed. -/
theorem carefulRun_running (hfs : ∀ f ∈ fs, f.2.Linked) (h₀ : s₀.Start L fs) (h : Run (CarefulStep L fs) s₀ l s) :
    ∃ F c, Running L s.kernel F c :=
  h.invariant (I := fun s => ∃ F c, Running L s.kernel F c) (fun _ _ _ hr hs => CarefulStep.running hfs hr hs)
    (h₀.running hfs)

/-- A process comes back with the registers and the memory that it left. -/
theorem Resumes.kept (hfs : ∀ f ∈ fs, f.2.Linked) (hr : ∃ F c, Running L s.kernel F c) (hl : s.kernel.Live i)
    (h : s.Resumes L fs i l s') : (∃ F, Running L s'.kernel F i) ∧ Kept s.kernel s'.kernel i ∧
      (l = [] ∧ s' = s ∨ ∃ w, s' = resume L s'.kernel s'.input w) := by
  obtain ⟨hrun, hcur⟩ := h
  induction hrun with
  | nil =>
      obtain ⟨F, c, hr⟩ := hr
      obtain rfl := hr.cur.symm.trans hcur
      exact ⟨⟨F, hr⟩, .refl hl, .inl ⟨rfl, rfl⟩⟩
  | @cons s s₁ s' t l hs hrest ih =>
      obtain ⟨F, c, hr⟩ := hr
      obtain ⟨hstep, hne, hl₁⟩ := hs
      have hi : i ≠ c := fun he => hne (by rw [he, hr.cur])
      have hserved := hstep.1.served hfs hr hstep.2
      obtain ⟨hr', hkept, hres⟩ := ih hserved.running hl₁ hcur
      have hk₁ := hserved.others i hi hl hl₁
      refine ⟨hr', hk₁.trans hkept (hr.proc i hl) (hr.full i hl), .inr ?_⟩
      rcases hres with ⟨rfl, rfl⟩ | hw
      · exact hserved.resumed.resolve_left fun he => hi (hcur.symm.trans he)
      · exact hw

/-! ## What a process leaves behind -/

/-- The registers of a process that has entered the kernel. -/
theorem Runs.inKernel_frame (hruns : s.Runs L t) (hr : Running L s.kernel F c) :
    loadFrame (s.inKernel L t).phys.mem (s.kernel.procs c).tf = t.frame := by
  have hw : Running L (s.atTrap t) F c := hr.userWrites (hruns.userWrites hr)
  unfold Machine.inKernel
  rw [hr.cur]
  exact (enter_frames hw.procOk).2

/-- The timer, `sys_yield` and a `sys_wait` without a zombie leave memory and registers as they found them. -/
theorem Step.left (hfs : ∀ f ∈ fs, f.2.Linked) (hr : Running L s.kernel F c) (hc : s.Careful L t)
    (h : s.Step L fs t s') (hleft : s'.kernel.cur ≠ c)
    (hplain : ∀ call, t.request = some call → call = .yield ∨ ∃ status, call = .wait status) :
    Kept (s.inKernel L t) s'.kernel c := by
  obtain ⟨hruns, htrap⟩ := h
  have hk := hruns.inKernel hr
  have hcur := hr.cur
  unfold trap at htrap
  cases hcause : t.cause with
  | timer =>
      simp only [hcause, Except.ok.injEq] at htrap
      have hs' : s'.kernel = ((s.inKernel L t).yield L).1 := by
        rw [← htrap]
        split <;> rfl
      rw [hs']
      exact yield_kept hk.live
  | ecall =>
      simp only [hcause] at htrap
      split at htrap
      · cases htrap
      rename_i call hcall
      simp only [bind_eq_ok, Prod.exists] at htrap
      obtain ⟨ret, k', input, h2, htrap⟩ := htrap
      have hreq : t.request = some call := by rw [Trap.request, hcause, hcall]
      have hcc := hc call hreq
      rw [hcur] at hcc
      obtain ⟨F', c', hr', hval⟩ := (hk.handleSyscall_served hfs hcc h2).running
      cases ret with
      | value a0 =>
          obtain rfl := hval a0 rfl
          simp only [Except.ok.injEq] at htrap
          rw [← htrap] at hleft
          exact absurd hr'.cur hleft
      | switched =>
          simp only [Except.ok.injEq] at htrap
          have hs' : s'.kernel = k' := by rw [← htrap]; rfl
          have hy : k' = ((s.inKernel L t).yield L).1 := by
            rcases hplain call hreq with rfl | ⟨status, rfl⟩
            · simp only [Kernel.handleSyscall, Except.ok.injEq, Prod.mk.injEq] at h2
              exact h2.2.1.symm
            · simp only [Kernel.handleSyscall, bind_eq_ok, Prod.exists, Except.ok.injEq, Prod.mk.injEq] at h2
              obtain ⟨_, _, h2, rfl, rfl, _⟩ := h2
              unfold sysWait at h2
              split at h2
              · simp only [bind_eq_ok, Except.ok.injEq, Prod.mk.injEq] at h2
                obtain ⟨_, _, _, _, hret, _⟩ := h2
                cases hret
              · split at h2
                · rename_i hy
                  simp only [Except.ok.injEq, Prod.mk.injEq] at h2
                  rw [hy, h2.2]
                · cases h2
          rw [hs', hy]
          exact yield_kept hk.live

/-- Whether a process stands at an `ecall` depends on its pages only. -/
theorem atEcall_congr {root : Nat} (hsp : SpaceOk L k.phys F root) (hs : k.satp = root) (hs' : k'.satp = root)
    (hm : ∀ a, InSpace k.phys.mem root (pageOf a) → k'.phys.mem a = k.phys.mem a) :
    atEcall k' pc = atEcall k pc := by
  subst hs
  unfold atEcall
  rw [Bool.eq_iff_iff, List.all_eq_true, List.all_eq_true]
  refine forall₂_congr fun j _ => ?_
  rw [userAccess_congr hsp hs' hm]
  cases ha : userAccess k ((pc.toNat + j) % 2 ^ 64) pteX with
  | none => rfl
  | some pa =>
      dsimp only
      rw [hm _ (userAccess_inSpace hsp ha)]

/-- Process `c` goes on at the instruction where it trapped, with the registers that `user_return` does not
use. -/
structure Back (L : Layout) (s : Machine) (c : Fin procsMax) (t : Trap) (s' : Machine) : Prop where
  running : ∃ F, Running L s'.kernel F c
  kept : Kept (s.inKernel L t) s'.kernel c
  resumed : ∃ w, s'.user = s'.kernel.userReturn L w
  frame : ∀ j, ¬Lost j → s'.user j = t.frame j
  a0 : s'.user 10 = BitVec.ofNat 64 ((s.kernel.procs c).argc % 2 ^ 32).toNat
  a1 : s'.user tfA1 = BitVec.ofNat 64 (s.kernel.procs c).argvPtr
  ecall : atEcall s'.kernel (s'.user tfPc) = atEcall (s.atTrap t) (t.frame tfPc)

theorem Step.back (hfs : ∀ f ∈ fs, f.2.Linked) (hr : Running L s.kernel F c) (h : s.CarefulStep L fs t s₀)
    (hleft : s₀.kernel.cur ≠ c)
    (hplain : ∀ call, t.request = some call → call = .yield ∨ ∃ status, call = .wait status)
    (hres : s₀.Resumes L fs c l s') : Back L s c t s' := by
  have hk := h.1.1.inKernel hr
  have h1 := h.1.left hfs hr h.2 hleft hplain
  obtain ⟨⟨F', hr'⟩, h2, hback⟩ := hres.kept hfs (h.1.served hfs hr h.2).running h1.live
  have hkept := h1.trans h2 hk.procOk hk.pageTable
  obtain ⟨w, hw⟩ := hback.resolve_left fun he => hleft (by rw [← he.2]; exact hr'.cur)
  have huser : s'.user = s'.kernel.userReturn L w := by rw [hw]; rfl
  have hframe : ∀ j, ¬Lost j → s'.user j = t.frame j := fun j hj => by
    rw [huser, userReturn_kept hj, hr'.cur, hkept.loadFrame]
    exact congrFun (h.1.1.inKernel_frame hr) j
  have hat : Running L (s.atTrap t) F c := hr.userWrites (h.1.1.userWrites hr)
  refine ⟨⟨F', hr'⟩, hkept, ⟨w, huser⟩, hframe, ?_, ?_, ?_⟩
  · rw [huser, userReturn_a0, hr'.cur, hkept.argc]
    rfl
  · rw [huser, userReturn_a1, hr'.cur, hkept.argvPtr]
    rfl
  · rw [hframe tfPc (by decide), atEcall_congr hk.spaceOk hk.active (hr'.active.trans hkept.pageTable) hkept.space]
    refine atEcall_congr hat.spaceOk hat.active hk.active fun a ha => ?_
    unfold Machine.inKernel
    rw [hr.cur]
    exact enter_mem hat.procOk hat.live fun htf => (hat.toInv.tfPages htf).2 c hat.live hat.pageTable ha

end Machine

end RiscvOs
