import RiscvOs.Lemmas.Arguments

/-!
# Calls that are made again

A process whose call has been switched away stands at its `ecall` until the call comes back. Each time that it has
a turn, `argc` and `argv` are in the place of the first two arguments.
-/

namespace RiscvOs

open ByteMem Outcome Kernel Lts

variable {L : Layout} {fs : Initramfs} {k k' k'' k₁ : Kernel} {F F₁ : List Nat} {c i : Fin procsMax}
  {s s' s₀ s₁ : Machine} {t t' : Trap} {l : List Trap} {f : Frame} {j : Fin 32}

/-! ## The memory of a process that stays -/

/-- The record and the pages of process `i` are as they were. -/
structure Kernel.Stays (k k' : Kernel) (i : Fin procsMax) : Prop where
  record : ∃ st msg, k'.procs i = { k.procs i with state := st, inbox := msg }
  live : k'.Live i
  space : ∀ a, InSpace k.phys.mem (k.procs i).pageTable (pageOf a) → k'.phys.mem a = k.phys.mem a

namespace Kernel.Stays

theorem refl (hl : k.Live i) : Stays k k i := ⟨⟨_, _, rfl⟩, hl, fun _ _ => rfl⟩

variable (h : Stays k k' i)
include h

theorem pageTable : (k'.procs i).pageTable = (k.procs i).pageTable := by
  obtain ⟨st, msg, hr⟩ := h.record
  rw [hr]

theorem argc : (k'.procs i).argc = (k.procs i).argc := by
  obtain ⟨st, msg, hr⟩ := h.record
  rw [hr]

theorem argvPtr : (k'.procs i).argvPtr = (k.procs i).argvPtr := by
  obtain ⟨st, msg, hr⟩ := h.record
  rw [hr]

theorem inSpace (hs : SpaceOk L k.phys F (k.procs i).pageTable) (pg : Nat) :
    InSpace k'.phys.mem (k'.procs i).pageTable pg ↔ InSpace k.phys.mem (k.procs i).pageTable pg := by
  rw [h.pageTable, InSpace, InSpace,
    spaceAt_congr (fun a ha => h.space a ha.inSpace) fun _ => hs.tables.aligned]

theorem trans (h' : Stays k' k'' i) (hs : SpaceOk L k.phys F (k.procs i).pageTable) : Stays k k'' i := by
  refine ⟨?_, h'.live, fun a ha => ?_⟩
  · obtain ⟨st, msg, hr⟩ := h.record
    obtain ⟨st', msg', hr'⟩ := h'.record
    exact ⟨st', msg', by rw [hr', hr]⟩
  · rw [h'.space a ((h.inSpace hs _).mpr ha), h.space a ha]

/-- What the process sees. -/
theorem userView (hs : SpaceOk L k.phys F (k.procs i).pageTable) (va : Nat) :
    RiscvOs.userView k'.phys.mem (k'.procs i).pageTable va = RiscvOs.userView k.phys.mem (k.procs i).pageTable va := by
  have hagree : Agree (k.procs i).pageTable k.phys.mem k'.phys.mem := h.space
  rw [h.pageTable]
  exact hagree.userView hs va

end Kernel.Stays

theorem Kernel.Kept.stays (h : Kept k k' i) : Stays k k' i := ⟨h.record, h.live, h.space⟩

/-! ## At the `ecall` -/

namespace Machine

/-- The registers of `user_return` that keep what the trap has found there, and the two arguments of the program. -/
structure Reloaded (p : Proc) (f g : Frame) : Prop where
  kept : ∀ j, ¬Lost j → g j = f j
  a0 : g 10 = BitVec.ofNat 64 (p.argc % 2 ^ 32).toNat
  a1 : g tfA1 = BitVec.ofNat 64 p.argvPtr

/-- Process `c` stands at the `ecall` at which it has left the state `k₁`, with the registers `f`. -/
structure Stuck (k₁ : Kernel) (c : Fin procsMax) (f : Frame) (s : Machine) : Prop where
  stays : Stays k₁ s.kernel c
  away : s.kernel.cur ≠ c → ∀ j, ¬Lost j → loadFrame s.kernel.phys.mem (s.kernel.procs c).tf j = f j
  back : s.kernel.cur = c → Reloaded (k₁.procs c) f s.user

/-- A step of any process in which the call of process `c` does not come back. -/
def Pending (L : Layout) (fs : Initramfs) (c : Fin procsMax) (s : Machine) (t : Trap) (s' : Machine) : Prop :=
  s.CarefulStep L fs t s' ∧ s'.kernel.Live c ∧ (s.kernel.cur = c → t.cause = .ecall → s'.kernel.cur ≠ c)

theorem Stuck.away_step (hfs : ∀ f ∈ fs, f.2.Linked) (hr : Running L s.kernel F i) (h : Stuck k₁ c f s)
    (hs₁ : SpaceOk L k₁.phys F₁ (k₁.procs c).pageTable) (hi : c ≠ i) (hs : s.CarefulStep L fs t s')
    (hl : s'.kernel.Live c) : Stuck k₁ c f s' := by
  have hserved := hs.1.served hfs hr hs.2
  have hkept := hserved.others c hi h.stays.live hl
  have hframe : ∀ j, ¬Lost j → loadFrame s'.kernel.phys.mem (s'.kernel.procs c).tf j = f j := fun j hj => by
    rw [hkept.loadFrame]
    exact h.away (fun he => hi (he.symm.trans hr.cur)) j hj
  refine ⟨h.stays.trans hkept.stays hs₁, fun _ => hframe, fun hcur => ?_⟩
  obtain ⟨w, hw⟩ := hserved.resumed.resolve_left fun he => hi (hcur.symm.trans he)
  have huser : s'.user = s'.kernel.userReturn L w := by rw [hw]; rfl
  refine ⟨fun j hj => ?_, ?_, ?_⟩
  · rw [huser, userReturn_kept hj, hcur]
    exact hframe j hj
  · rw [huser, userReturn_a0, hcur, hkept.argc, h.stays.argc]
  · rw [huser, userReturn_a1, hcur, hkept.argvPtr, h.stays.argvPtr]

/-- The entry of the kernel leaves the pages of the process alone. -/
theorem atTrap_stays (hr : Running L s.kernel F c) (hruns : s.Runs L t) : Stays (s.atTrap t) (s.inKernel L t) c := by
  have hat : Running L (s.atTrap t) F c := hr.userWrites (hruns.userWrites hr)
  refine ⟨⟨_, _, rfl⟩, hr.live, fun a ha => ?_⟩
  unfold Machine.inKernel
  rw [hr.cur]
  exact enter_mem hat.procOk hat.live fun htf => (hat.toInv.tfPages htf).2 c hat.live hat.pageTable ha

theorem inKernel_stays (hr : Running L s.kernel F c) (hruns : s.Runs L t) (hm : t.mem = s.kernel.phys.mem) :
    Stays s.kernel (s.inKernel L t) c := by
  have h := atTrap_stays hr hruns
  unfold atTrap at h
  rwa [hm] at h

/-- So does the result of a call. -/
theorem setResult_stays (hr : Running L k F c) (a0 : Nat) : Stays k (setResult L k c a0) c := by
  refine ⟨⟨_, _, rfl⟩, hr.live, fun a ha => store64_outside fun hx => ?_⟩
  have hpage := (hr.spaceOk.page _ ha).1.ge
  have hlow : pageOf a < L.freeRam := pageOf_lt (by
    have := tfStackFrame_lt L c
    unfold tfA0 frameSize at *
    omega)
  omega

section GoOn

variable {a0 : Nat} {input : List UInt8} {w sepc : BitVec 64}

theorem goOn_cur : (goOn L (setResult L k c a0) c input w sepc).kernel.cur = k.cur := rfl

theorem goOn_procs : (goOn L (setResult L k c a0) c input w sepc).kernel.procs = k.procs := rfl

theorem goOn_table : (goOn L (setResult L k c a0) c input w sepc).kernel.table = k.table := rfl

end GoOn

/-- When the process has its turn, the next thing that it does is the `ecall`. -/
theorem Stuck.atEcall (hr : Running L s.kernel F c) (h : Stuck k₁ c f s)
    (hs₁ : SpaceOk L k₁.phys F₁ (k₁.procs c).pageTable)
    (hat : atEcall { k₁ with satp := (k₁.procs c).pageTable } (f tfPc)) : atEcall s.kernel (s.user tfPc) := by
  rw [(h.back hr.cur).kept tfPc (by decide)]
  rw [← hat]
  exact atEcall_congr (k := { k₁ with satp := (k₁.procs c).pageTable }) hs₁ rfl
    (hr.active.trans h.stays.pageTable) h.stays.space

theorem Stuck.back_step (hfs : ∀ f ∈ fs, f.2.Linked) (hr : Running L s.kernel F c) (h : Stuck k₁ c f s)
    (hs₁ : SpaceOk L k₁.phys F₁ (k₁.procs c).pageTable)
    (hat : Machine.atEcall { k₁ with satp := (k₁.procs c).pageTable } (f tfPc))
    (hplain : ∀ call, t.request = some call → s'.kernel.cur ≠ c → call = .yield ∨ ∃ status, call = .wait status)
    (hs : Pending L fs c s t s') : Stuck k₁ c f s' := by
  obtain ⟨hstep, hl, hpend⟩ := hs
  have hruns := hstep.1.1
  obtain ⟨hm, hframe⟩ := hruns.ecall (h.atEcall hr hs₁ hat)
  have hback := h.back hr.cur
  have hk := hruns.inKernel hr
  by_cases hcur : s'.kernel.cur = c
  · -- only the timer comes back, and without a switch
    have hcause : t.cause = .timer := by
      cases hcause : t.cause with
      | timer => rfl
      | ecall => exact absurd hcur (hpend hr.cur hcause)
    have hsame : s.SameProgram L fs t := fun _ _ _ he => by simp [Trap.request, hcause] at he
    have huser : s'.user = t.frame := by
      rcases Step.ways hr hfs hstep hsame with ⟨-, hp⟩ | ⟨hne, -⟩
      · cases hp with
        | timer _ hu => exact hu
        | call hc => simp [Trap.request, hcause] at hc
      · exact absurd hcur hne
    have hstays : Stays (s.inKernel L t) s'.kernel c := by
      have htrap := hstep.1.2
      unfold trap at htrap
      simp only [hcause, Except.ok.injEq] at htrap
      have hs' : s'.kernel = ((s.inKernel L t).yield L).1 := by
        rw [← htrap]
        split <;> rfl
      rw [hs']
      exact (yield_kept hk.live).stays
    refine ⟨h.stays.trans ((inKernel_stays hr hruns hm).trans hstays hr.spaceOk) hs₁, fun hne => absurd hcur hne,
      fun _ => ?_⟩
    rw [huser, hframe]
    exact hback
  · have hkept := hstep.1.left hfs hr hstep.2 hcur fun call hc => hplain call hc hcur
    refine ⟨h.stays.trans ((inKernel_stays hr hruns hm).trans hkept.stays hr.spaceOk) hs₁, fun _ j hj => ?_,
      fun he => absurd he hcur⟩
    rw [hkept.loadFrame]
    show loadFrame (s.inKernel L t).phys.mem (s.kernel.procs c).tf j = f j
    rw [hruns.inKernel_frame hr, hframe]
    exact hback.kept j hj

/-- Where process `c` stands, only `sys_yield` and `sys_wait` leave it. -/
def Plain (L : Layout) (fs : Initramfs) (c : Fin procsMax) (p : Proc) (f : Frame) : Prop :=
  ∀ (s s' : Machine) (t : Trap) (F : List Nat), Running L s.kernel F c → Reloaded p f s.user → t.frame = s.user →
    s.CarefulStep L fs t s' → s'.kernel.cur ≠ c → ∀ call, t.request = some call →
      call = .yield ∨ ∃ status, call = .wait status

theorem Stuck.run (hfs : ∀ f ∈ fs, f.2.Linked) (hr : ∃ F c, Running L s.kernel F c) (h : Stuck k₁ c f s)
    (hs₁ : SpaceOk L k₁.phys F₁ (k₁.procs c).pageTable)
    (hat : Machine.atEcall { k₁ with satp := (k₁.procs c).pageTable } (f tfPc))
    (hplain : Plain L fs c (k₁.procs c) f)
    (hrun : Run (Pending L fs c) s l s') : Stuck k₁ c f s' := by
  induction hrun with
  | nil => exact h
  | @cons s s₂ _ t _ hs _ ih =>
      obtain ⟨F, i, hr⟩ := hr
      refine ih (hs.1.1.served hfs hr hs.1.2).running ?_
      by_cases hi : c = i
      · subst hi
        have hframe := (hs.1.1.1.ecall (h.atEcall hr hs₁ hat)).2
        exact h.back_step hfs hr hs₁ hat (fun call hc hne =>
          hplain s s₂ t F hr (h.back hr.cur) hframe hs.1 hne call hc) hs
      · exact h.away_step hfs hr hs₁ hi hs.1 hs.2.1

/-- A process is stuck when its call has been switched away. -/
theorem Step.stuck (hfs : ∀ f ∈ fs, f.2.Linked) (hr : Running L s.kernel F c) (hs : s.CarefulStep L fs t s₁)
    (hexec : s.SameProgram L fs t) (hne : s₁.kernel.cur ≠ c) : Stuck s₁.kernel c t.frame s₁ := by
  rcases Step.ways hr hfs hs hexec with ⟨hcur, -⟩ | ⟨-, hl, hf⟩
  · exact absurd hcur hne
  · refine ⟨.refl hl, fun _ j hj => ?_, fun he => absurd he hne⟩
    rw [hf.record fun he => hj (by unfold Lost; simp [he])]
    exact congrFun (hs.1.1.inKernel_frame hr) j

/-- Where a process stands whose call has been switched away. -/
theorem Step.stands (hfs : ∀ f ∈ fs, f.2.Linked) (hr : Running L s.kernel F c) (hs : s.CarefulStep L fs t s₁)
    (hexec : s.SameProgram L fs t) (hne : s₁.kernel.cur ≠ c)
    (hat : Machine.atEcall { s₁.kernel with satp := (s₁.kernel.procs c).pageTable } (t.frame tfPc))
    (hplain : Plain L fs c (s₁.kernel.procs c) t.frame) (hrun : Run (Pending L fs c) s₁ l s')
    (hcur : s'.kernel.cur = c) : ∃ F', Running L s'.kernel F' c ∧ Stuck s₁.kernel c t.frame s' ∧
      Machine.atEcall s'.kernel (s'.user tfPc) := by
  have hstuck := Step.stuck hfs hr hs hexec hne
  have hr₁ := (hs.1.served hfs hr hs.2).running
  obtain ⟨F₁, c₁, hr₁'⟩ := hr₁
  have hl := hstuck.stays.live
  have hs₁ : SpaceOk L s₁.kernel.phys F₁ (s₁.kernel.procs c).pageTable :=
    (hr₁'.proc c hl).spaceOk (hr₁'.full c hl)
  have hstuck' := hstuck.run hfs ⟨F₁, c₁, hr₁'⟩ hs₁ hat hplain hrun
  obtain ⟨F', c', hr'⟩ := hrun.invariant (I := fun s => ∃ F c, Running L s.kernel F c)
    (fun _ _ _ hi hs => hs.1.running hfs hi) ⟨F₁, c₁, hr₁'⟩
  obtain rfl := hr'.cur.symm.trans hcur
  exact ⟨F', hr', hstuck', hstuck'.atEcall hr' hs₁ hat⟩

end Machine

end RiscvOs
