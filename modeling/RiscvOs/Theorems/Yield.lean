import RiscvOs.Theorems.Processes
import RiscvOs.Lemmas.Parked

/-!
# `sys_yield` over a switch

`yield` leaves the kernel before `trap_handler` has moved the program counter behind the `ecall`. So a process
that is switched away by its own `sys_yield` makes the same call again when its turn comes.
-/

namespace RiscvOs

open Kernel Lts

variable {L : Layout} {fs : Initramfs} {F : List Nat} {c : Fin procsMax} {s s' s₀ s₁ : Machine} {t t' : Trap}
  {l l₀ : List Trap} {call : Call}

theorem callOf_yield {f : Frame} : callOf f = some .yield ↔ (f 17).toNat = 124 := by
  constructor
  · intro h
    unfold callOf at h
    dsimp only at h
    split at h <;> first
      | assumption
      | cases h
  · intro h
    unfold callOf
    rw [h]
    rfl

namespace Machine

theorem careful_of (h : t.request = some call) (hc : (s.inKernel L t).Careful L s.kernel.cur call) : s.Careful L t := by
  intro call' h'
  obtain rfl := Option.some.inj (h.symm.trans h')
  exact hc

/-- The process goes on behind the `ecall` of the trap, with the result 0. -/
def GoesOn (t : Trap) (s' : Machine) : Prop := s'.user tfPc = t.frame tfPc + 4 ∧ s'.user 10 = 0

/-- The process stands at the `ecall` of the trap, and its next system call is `sys_yield` again. -/
def Repeats (L : Layout) (t : Trap) (s' : Machine) : Prop :=
  s'.user tfPc = t.frame tfPc ∧ ∀ t', s'.Runs L t' → t'.cause = .ecall → t'.request = some .yield

theorem Trap.request_ecall (h : t.request = some call) : t.cause = .ecall ∧ callOf t.frame = some call := by
  unfold Trap.request at h
  split at h
  · cases h
  · exact ⟨‹_›, h⟩

theorem Back.repeats (h : Back L s c t s') (hruns : s.Runs L t) (hy : t.request = some .yield) : s'.Repeats L t := by
  obtain ⟨hcause, hcall⟩ := Trap.request_ecall hy
  refine ⟨h.frame tfPc (by decide), fun t' hruns' hcause' => ?_⟩
  have hat : atEcall s'.kernel (s'.user tfPc) := by
    rw [h.ecall]
    exact hruns.call hcause
  have hframe := (hruns'.ecall hat).2
  rw [Trap.request, hcause', callOf_yield, hframe, h.frame 17 (by decide)]
  exact callOf_yield.mp hcall

/-- No process whose `sys_yield` has switched to another one goes on behind it: when its turn comes it makes the
call again. -/
theorem Step.yield_repeats (hfs : ∀ f ∈ fs, f.2.Linked) (hr : Running L s.kernel F c) (h : s.Step L fs t s₁)
    (hy : t.request = some .yield) (hleft : s₁.kernel.cur ≠ c) (hres : s₁.Resumes L fs c l s') :
    ¬GoesOn t s' ∧ s'.Repeats L t := by
  have hback := Step.back hfs hr ⟨h, careful_of hy trivial⟩ hleft (fun call hc => .inl ?_) hres
  · have hrep := hback.repeats h.1 hy
    refine ⟨fun hon => ?_, hrep⟩
    have he := hrep.1.symm.trans hon.1
    simp at he
  · exact Option.some.inj (hc.symm.trans hy)

/-- A process that is free makes the call. -/
theorem Free.yield (fs : Initramfs) (h : Free L s F c) : ∃ t s', s.Step L fs t s' ∧ t.request = some .yield ∧
    s'.kernel.table = s.kernel.table.yield := by
  obtain ⟨t, ht, -⟩ := h.call 124 0 0 0 [] []
  have hcall : callOf t.frame = some .yield := by
    rw [ht.frame]
    rfl
  obtain ⟨s', hs'⟩ : ∃ s', s.trap L fs t = .ok s' := by
    have hsys : (s.inKernel L t).handleSyscall L fs s.input t.now .yield =
        .ok (if ((s.inKernel L t).yield L).2 then .switched else .value 0, ((s.inKernel L t).yield L).1, s.input) := rfl
    split at hsys
    · exact ⟨_, trap_switched ht.cause hcall hsys⟩
    · exact ⟨_, trap_value ht.cause hcall hsys⟩
  refine ⟨t, s', ⟨ht.runs, hs'⟩, by rw [Trap.request, ht.cause, hcall], ?_⟩
  obtain ⟨ev, he, htab⟩ := trap_effect (by rw [h.running.current]; rfl) hs'
  cases he with
  | timer hc =>
      rw [ht.cause] at hc
      cases hc
  | ecall _ hc he =>
      rw [hcall] at hc
      obtain rfl := Option.some.inj hc
      cases he with
      | quiet hq => exact hq.elim
      | yield => exact htab

/-- The shell forks, and its `sys_yield` switches to the child, which the timer then stops. -/
theorem exists_yield : ∃ (s₀ s s₁ s' : Machine) (t₀ t t₁ : Trap), s₀.Start Layout.kernelMap tinyFs ∧
    s₀.CarefulStep Layout.kernelMap tinyFs t₀ s ∧ s.Step Layout.kernelMap tinyFs t s₁ ∧ t.request = some .yield ∧
      s₁.kernel.cur ≠ s.kernel.cur ∧ s₁.Resumes Layout.kernelMap tinyFs s.kernel.cur [t₁] s' := by
  obtain ⟨s₀, F, hstart, -, hfree, hboot, hroom⟩ := exists_shell Layout.kernelMap []
  have hinit := hboot.initial hboot.live_shell
  obtain ⟨t₀, s, F₁, h0, hreq, hfree₁, -, -, ht₁, hcode, hpc⟩ :=
    hfree.fork tinyFs hinit hboot.freeSlot (Nat.le_trans (by decide) hroom)
  obtain ⟨hchild, -⟩ := h0.forked hfree.running hreq hboot.freeSlot hinit hcode hpc
  obtain ⟨t, s₁, h1, hy, ht₂⟩ := hfree₁.yield tinyFs
  have htab₁ : s₁.kernel.table = (Table.boot.fork 2).yield := by rw [ht₂, ht₁, hstart.table]
  have hcur : s.kernel.cur = 1 := hfree₁.running.cur
  have hcur₁ : s₁.kernel.cur = 2 := by
    show s₁.kernel.table.current = 2
    rw [htab₁]
    decide
  have hcareful : s.CarefulStep Layout.kernelMap tinyFs t s₁ := ⟨h1, careful_of hy trivial⟩
  have hlive : ∀ i, (s₁.kernel.table.slots i).state ≠ .unused → s₁.kernel.Live i := fun i hi => hi
  obtain ⟨F₂, hfree₂⟩ := hchild.turn tinyFs_linked hfree₁.running hcareful (by decide) (hlive 2 (by
    rw [htab₁]
    decide)) hcur₁
  obtain ⟨t₁, s', h2, -, ht₃, -⟩ := hfree₂.timer tinyFs_linked
  have htab₃ : s'.kernel.table = (Table.boot.fork 2).yield.yield := by rw [ht₃, htab₁]
  refine ⟨s₀, s, s₁, s', t₀, t, t₁, hstart, ⟨h0, careful_of hreq trivial⟩, h1, hy, ?_, .single ⟨h2, ?_, ?_⟩, ?_⟩
  · rw [hcur, hcur₁]
    decide
  · rw [hcur, hcur₁]
    decide
  · show (s'.kernel.table.slots s.kernel.cur).state ≠ .unused
    rw [htab₃, hcur]
    decide
  · show s'.kernel.table.current = s.kernel.cur
    rw [htab₃, hcur]
    decide

end Machine

/-- In no run does a process that is switched away by its `sys_yield` go on behind the `ecall`: it makes the same
call again at every turn. -/
theorem sysYield_repeats (hfs : ∀ f ∈ fs, f.2.Linked) (h₀ : s₀.Start L fs)
    (h : Run (Machine.CarefulStep L fs) s₀ l₀ s) (hs : s.Step L fs t s₁) (hy : t.request = some .yield)
    (hleft : s₁.kernel.cur ≠ s.kernel.cur) (hres : s₁.Resumes L fs s.kernel.cur l s') :
    ¬Machine.GoesOn t s' ∧ s'.Repeats L t := by
  obtain ⟨F, c, hr⟩ := Machine.carefulRun_running hfs h₀ h
  obtain rfl := hr.cur
  exact hs.yield_repeats hfs hr hy hleft hres

/-- The child gets its turn, and then the shell again. -/
theorem sysYield_repeats_shell : ∃ (s₀ s s₁ s' : Machine) (t₀ t t₁ : Trap), s₀.Start Layout.kernelMap tinyFs ∧
    s₀.CarefulStep Layout.kernelMap tinyFs t₀ s ∧ s.Step Layout.kernelMap tinyFs t s₁ ∧
      s₁.Resumes Layout.kernelMap tinyFs s.kernel.cur [t₁] s' ∧ ¬Machine.GoesOn t s' ∧
        s'.Repeats Layout.kernelMap t := by
  obtain ⟨s₀, s, s₁, s', t₀, t, t₁, hstart, h0, h1, hy, hleft, hres⟩ := Machine.exists_yield
  exact ⟨s₀, s, s₁, s', t₀, t, t₁, hstart, h0, h1, hres,
    sysYield_repeats tinyFs_linked hstart (.single h0) h1 hy hleft hres⟩

/-- There the shell does not go on behind its `sys_yield`. -/
theorem sysYield_switched : ¬∀ (L : Layout) (fs : Initramfs) (s₀ s s₁ s' : Machine) (t : Trap) (l₀ l : List Trap),
    s₀.Start L fs → Run (Machine.Step L fs) s₀ l₀ s → s.Step L fs t s₁ → t.request = some .yield →
      s₁.kernel.cur ≠ s.kernel.cur → s₁.Resumes L fs s.kernel.cur l s' → Machine.GoesOn t s' := by
  intro hall
  obtain ⟨s₀, s, s₁, s', t₀, t, t₁, hstart, h0, h1, hy, hleft, hres⟩ := Machine.exists_yield
  obtain ⟨F, c, hr⟩ := Machine.carefulRun_running tinyFs_linked hstart (.single h0)
  obtain rfl := hr.cur
  exact (h1.yield_repeats tinyFs_linked hr hy hleft hres).1
    (hall _ _ _ _ _ _ _ _ _ hstart (.single h0.1) h1 hy hleft hres)

end RiscvOs
