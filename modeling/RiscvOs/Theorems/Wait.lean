import RiscvOs.Lemmas.Stores
import RiscvOs.Theorems.Restart

/-!
# What `sys_wait` gives back

A `sys_wait` that finds a zombie comes back at once with its pid. The exit code is in the status, the slot is free,
and the pages that the zombie had are on the free list.
-/

namespace RiscvOs

open ByteMem Outcome Kernel Lts

variable {L : Layout} {fs : Initramfs} {k k' k₁ : Kernel} {F F' : List Nat} {c i z : Fin procsMax}
  {s s' s₀ s₁ : Machine} {t : Trap} {l l₀ : List Trap} {pg status code x : Nat} {ret : SysRet}

/-- What a process sees after the exit code has been stored. -/
def statusView (status code : Nat) (view : Nat → Option UInt8) : Nat → Option UInt8 :=
  if status = 0 then view else overlay status ((List.range 4).map (byteOf code)) view

namespace Kernel

theorem Running.storeStatus_view (h : Running L k F c) (hst : StatusOk status)
    (hs : k.storeStatus L status code = .ok k') (hx : x < kernelBase) :
    userView k'.phys.mem (k'.procs c).pageTable x =
      statusView status code (userView k.phys.mem (k.procs c).pageTable) x := by
  unfold storeStatus at hs
  unfold statusView
  split at hs
  · rename_i h0
    rw [if_pos h0, Except.ok.inj hs]
  · rename_i h0
    rw [if_neg h0]
    exact h.storeBytes_view (by simpa using hst.resolve_left h0) hs hx

/-- The store to the status moves none of the pages of the zombie. -/
theorem UserWrites.released (h : UserWrites k c k') (hk : k.Inv L F) (hl : k.Live c)
    (hpt : (k.procs c).pageTable ≠ 0) : k'.Released L z pg ↔ k.Released L z pg := by
  have hholds : ∀ r, k'.Holds L z r pg ↔ k.Holds L z r pg := fun r => (h.alone hk hl hpt).holds hk
  have htable : k'.phys.allocTable = k.phys.allocTable := by rw [h.state]
  unfold Released Tracked
  rw [h.procs, htable]
  simp only [hholds]

theorem findZombie_first (h : k.findZombie = some z) (hi : i < z) :
    ¬((k.procs i).state = .zombie ∧ (k.procs i).parent = some k.cur) := by
  have hf := List.find?_eq_some_iff_append.mp h
  obtain ⟨-, as, bs, hsplit, hno⟩ := hf
  have hmem : i ∈ as := by
    have hsorted := List.pairwise_lt_finRange procsMax
    rw [hsplit, List.pairwise_append] at hsorted
    have hall : i ∈ as ++ z :: bs := hsplit ▸ List.mem_finRange i
    rcases List.mem_append.mp hall with h1 | h1
    · exact h1
    · rcases List.mem_cons.mp h1 with rfl | h2
      · exact absurd hi (lt_irrefl _)
      · have := (List.pairwise_cons.mp hsorted.2.1).1 i h2
        exact absurd hi (not_lt.mpr this.le)
  simpa [imp_iff_not_or] using hno i hmem

end Kernel

namespace Machine

/-- The process that traps has reaped its child `z` when it goes on. -/
structure WaitReturns (L : Layout) (s : Machine) (t : Trap) (status : Nat) (z : Fin procsMax)
    (s' : Machine) : Prop where
  cur : s'.kernel.cur = s.kernel.cur
  a0 : s'.user 10 = BitVec.ofNat 64 (s.kernel.procs z).pid
  pc : s'.user tfPc = t.frame tfPc + 4
  record : s'.kernel.procs s.kernel.cur = s.kernel.procs s.kernel.cur
  gone : (s'.kernel.procs z).state = .unused
  memory : ∀ x < kernelBase, userView s'.kernel.phys.mem (s.kernel.procs s.kernel.cur).pageTable x =
    statusView status (s.kernel.procs z).exitCode (userView t.mem (s.kernel.procs s.kernel.cur).pageTable) x
  pages : ∀ pg, s'.kernel.phys.Free L pg ↔ s.kernel.phys.Free L pg ∨ (s.inKernel L t).Released L z pg

theorem CarefulStep.waitReturns (hfs : ∀ f ∈ fs, f.2.Linked) (hr : Running L s.kernel F c)
    (h : s.CarefulStep L fs t s') (hreq : t.request = some (.wait status)) (hz : s.kernel.findZombie = some z) : WaitReturns L s t status z s' := by
  obtain ⟨⟨hruns, htrap⟩, hcare⟩ := h
  have hk := hruns.inKernel hr
  obtain ⟨hst, hc⟩ := hcare _ hreq
  obtain ⟨hcause, hcall⟩ := Trap.request_ecall hreq
  unfold trap at htrap
  simp only [hcause, hcall, bind_eq_ok, Prod.exists] at htrap
  obtain ⟨ret, k', input, hsys, htrap⟩ := htrap
  have hserved := hk.handleSyscall_served hfs (show Kernel.Careful _ _ _ (.wait status) from ⟨hst, hc⟩) hsys
  simp only [Kernel.handleSyscall, bind_eq_ok, Prod.exists, Except.ok.injEq, Prod.mk.injEq] at hsys
  obtain ⟨_, k', hwait, rfl, rfl, rfl⟩ := hsys
  have hz' : (s.inKernel L t).findZombie = some z := hz
  rcases hk.sysWait_cases hst hc hwait with ⟨hnone, -⟩ | ⟨z', k₁, F', rfl, hstore, hreap⟩
  · cases hnone.symm.trans hz'
  obtain rfl : z = z' := Option.some.inj (hz'.symm.trans hreap.zombie)
  obtain ⟨F₂, c', hr', hval⟩ := hserved.running
  replace hr' : Running L k' F₂ c := hval _ rfl ▸ hr'
  have hr₁ := hk.userWrites hreap.stored
  have hprocs : k'.procs c = s.kernel.procs c := by
    rw [hreap.procs, Function.update_of_ne hreap.ne]
    rfl
  have hkept : Kept k₁ k' c := hr₁.kept_frees hreap.reaped.frees hr₁.live
    (fun r pg => hreap.held c r pg hreap.ne) (by rw [hprocs, hreap.stored.procs]; rfl)
  have hspace := hr₁.spaceOk
  have hback := hkept.stays.trans (setResult_stays hr' (s.kernel.procs z).pid) hspace
  simp only [Except.ok.injEq, hr.cur] at htrap
  rw [← htrap]
  refine ⟨?_, goOn_a0, goOn_pc, ?_, ?_, fun x hx => ?_, fun pg => ?_⟩
  · exact (hr'.setResult (s.kernel.procs z).pid).cur.trans hr.cur.symm
  · rw [hr.cur]
    exact hprocs
  · show (k'.procs z).state = .unused
    rw [hreap.procs, Function.update_self]
    rfl
  · have hview := hback.userView hspace x
    rw [hback.pageTable, hreap.stored.procs] at hview
    rw [hr.cur]
    refine hview.trans ?_
    rw [← hreap.stored.procs, hk.storeStatus_view hst hstore hx]
    refine congrArg (fun view => statusView status _ view x) (funext fun y => ?_)
    exact (atTrap_stays hr hruns).userView (hr.userWrites (hruns.userWrites hr)).spaceOk y
  · have hnext : k₁.phys.nextPaddr = s.kernel.phys.nextPaddr := by
      rw [hreap.stored.state]
      rfl
    have hafter : k'.phys.Free L pg ↔ Avail L s.kernel.phys F pg ∨ (s.inKernel L t).Released L z pg := by
      rw [← hreap.stored.released hk.toInv hk.live hk.pageTable, hreap.reaped.frees.ok.free_iff,
        hreap.reaped.frees.avail]
      unfold Avail
      rw [hnext]
    rw [hr.ok.free_iff, ← hafter, hr'.ok.free_iff]
    exact (hr'.setResult (s.kernel.procs z).pid).ok.free_iff

end Machine

namespace Machine

/-- A timer interrupt that switches leaves the records alone, but for states and inboxes. -/
theorem CarefulStep.timer_record (hfs : ∀ f ∈ fs, f.2.Linked) (hr : Running L s.kernel F c)
    (h : s.CarefulStep L fs t s') (hreq : t.request = none) (hne : s'.kernel.cur ≠ c) (hl : s.kernel.Live i)
    (hl' : s'.kernel.Live i) : ∃ st msg, s'.kernel.procs i = { s.kernel.procs i with state := st, inbox := msg } := by
  by_cases hi : i = c
  · subst hi
    exact (h.1.left hfs hr h.2 hne fun _ he => by simp [hreq] at he).record
  · exact ((h.1.served hfs hr h.2).others i hi hl hl').record

/-- A process that is free exits with the code 7, and goes on. -/
theorem Free.exit (fs : Initramfs) (h : Free L s F c) : ∃ t s', s.CarefulStep L fs t s' ∧ Free L s' F c ∧
    s'.kernel.table = s.kernel.table.exit 7 ∧ (∀ i, i ≠ c → s'.kernel.procs i = s.kernel.procs i) ∧
      s'.kernel.procs c = { s.kernel.procs c with state := .zombie, exitCode := 7 } := by
  obtain ⟨t, ht, -⟩ := h.call 93 7 0 0 [] []
  have hcall : callOf t.frame = some (.exit 7) := by
    rw [ht.frame]
    rfl
  have hreq : t.request = some (.exit 7) := by rw [Trap.request, ht.cause, hcall]
  have hsys : (s.inKernel L t).handleSyscall L fs s.input t.now (.exit 7) =
      .ok (.value 0, (s.inKernel L t).sysExit 7, s.input) := rfl
  have htrap := trap_value ht.cause hcall hsys
  rw [h.running.cur] at htrap
  have hcode : HasCode ((s.inKernel L t).sysExit 7) c (program []) :=
    ht.code.relabel rfl (Kernel.sysExit_same (ht.running.cur.symm ▸ ht.running.live) c).pageTable
  refine ⟨t, _, ⟨⟨ht.runs, htrap⟩, careful_of hreq trivial⟩,
    ht.goOn (ht.running.sysExit 7) hcode, ?_, fun i hi => ?_, ?_⟩
  · rw [goOn_table, sysExit_table]
    rw [inKernel_table (by rw [h.running.current]; rfl)]
  · rw [goOn_procs]
    refine (setProc_procs_of_ne ?_).trans rfl
    rwa [ht.running.cur]
  · rw [goOn_procs]
    unfold Kernel.sysExit
    rw [ht.running.cur, setProc_procs_self]
    rfl

/-- The record of the child, and the frames of the others. -/
structure Heir (L : Layout) (k : Kernel) : Prop where
  heap : (k.procs 2).heapEnd = 0x3001000
  idle : (k.procs 0).tf = L.tfStackFrame 0
  shell : (k.procs 1).tf = L.tfStackFrame 1

theorem Heir.record (h : Heir L k) (hr : ∀ i, i = 0 ∨ i = 1 ∨ i = 2 →
    ∃ st msg, k'.procs i = { k.procs i with state := st, inbox := msg }) : Heir L k' := by
  obtain ⟨_, _, h0⟩ := hr 0 (.inl rfl)
  obtain ⟨_, _, h1⟩ := hr 1 (.inr (.inl rfl))
  obtain ⟨_, _, h2⟩ := hr 2 (.inr (.inr rfl))
  exact ⟨by rw [h2]; exact h.heap, by rw [h0]; exact h.idle, by rw [h1]; exact h.shell⟩

/-- The shell has forked, and its child has exited with the code 7. -/
theorem exists_zombie (L : Layout) : ∃ (s₀ s : Machine) (l : List Trap) (F : List Nat), s₀.Start L tinyFs ∧
    Run (CarefulStep L tinyFs) s₀ l s ∧ Free L s F 1 ∧ Heir L s.kernel ∧
      s.kernel.table = ((Table.boot.fork 2).yield.exit 7).yield := by
  obtain ⟨s₀, s₁, t₁, F₁, h, -⟩ := exists_forked L []
  have hlive : ∀ {s : Machine} {tb : Table}, s.kernel.table = tb → ∀ i, (tb.slots i).state ≠ .unused →
      s.kernel.Live i := fun ht i hi => by
    subst ht
    exact hi
  have hheir₁ : Heir L s₁.kernel := ⟨h.initial.heap, h.tf 0 (.inl rfl), h.tf 1 (.inr rfl)⟩
  -- the timer gives the child its turn
  obtain ⟨t₂, s₂, h2, hreq₂, ht₂, hpark⟩ := h.free.timer tinyFs_linked
  rw [h.table] at ht₂
  have hcur₂ : s₂.kernel.cur = 2 := by
    show s₂.kernel.table.current = 2
    rw [ht₂]
    decide
  have hne₂ : s₂.kernel.cur ≠ 1 := by
    rw [hcur₂]
    decide
  obtain ⟨F₂, hfree₂⟩ := h.parked.turn tinyFs_linked h.free.running h2 (by decide) (hlive ht₂ 2 (by decide)) hcur₂
  have hheir₂ := hheir₁.record fun i hi => h2.timer_record tinyFs_linked h.free.running hreq₂ hne₂
    (hlive h.table i (by rcases hi with rfl | rfl | rfl <;> decide))
    (hlive ht₂ i (by rcases hi with rfl | rfl | rfl <;> decide))
  -- the child exits, and the timer gives the shell its turn
  obtain ⟨t₃, s₃, h3, hfree₃, ht₃, hothers, hself⟩ := hfree₂.exit tinyFs
  rw [ht₂] at ht₃
  have hpark₃ := (hpark hne₂).step tinyFs_linked hfree₂.running h3 (by decide) (hlive ht₃ 1 (by decide))
  have hheir₃ : Heir L s₃.kernel :=
    ⟨by rw [hself]; exact hheir₂.heap, by rw [hothers 0 (by decide)]; exact hheir₂.idle,
      by rw [hothers 1 (by decide)]; exact hheir₂.shell⟩
  obtain ⟨t₄, s₄, h4, hreq₄, ht₄, -⟩ := hfree₃.timer tinyFs_linked
  rw [ht₃] at ht₄
  have hcur₄ : s₄.kernel.cur = 1 := by
    show s₄.kernel.table.current = 1
    rw [ht₄]
    decide
  obtain ⟨F₄, hfree₄⟩ := hpark₃.turn tinyFs_linked hfree₃.running h4 (by decide) (hlive ht₄ 1 (by decide)) hcur₄
  have hheir₄ := hheir₃.record fun i hi => h4.timer_record tinyFs_linked hfree₃.running hreq₄
    (by rw [hcur₄]; decide) (hlive ht₃ i (by rcases hi with rfl | rfl | rfl <;> decide))
    (hlive ht₄ i (by rcases hi with rfl | rfl | rfl <;> decide))
  exact ⟨s₀, s₄, _, F₄, h.start, .cons h.step (.cons h2 (.cons h3 (.single h4))), hfree₄, hheir₄, ht₄⟩

/-- The shell waits for its child with a status. -/
theorem exists_waited (L : Layout) : ∃ (s₀ s s' : Machine) (l : List Trap) (t : Trap), s₀.Start L tinyFs ∧
    Run (CarefulStep L tinyFs) s₀ l s ∧ s.CarefulStep L tinyFs t s' ∧ t.request = some (.wait dataVa) ∧
      s.kernel.findZombie = some 2 := by
  obtain ⟨s₀, s, l, F, hstart, hrun, hfree, hheir, htab⟩ := exists_zombie L
  obtain ⟨t, ht, -⟩ := hfree.call 260 dataVa 0 0 [] []
  have hcall : callOf t.frame = some (.wait dataVa) := by
    rw [ht.frame]
    rfl
  have hreq : t.request = some (.wait dataVa) := by rw [Trap.request, ht.cause, hcall]
  have hz : s.kernel.findZombie = some 2 := by
    show s.kernel.table.findZombie = some 2
    rw [htab]
    decide
  have hlive : ∀ i, s.kernel.Live i → i = 0 ∨ i = 1 ∨ i = 2 := fun i hi => by
    have hi' : (s.kernel.table.slots i).state ≠ .unused := hi
    rw [htab] at hi'
    clear hi
    revert i
    decide
  have hl : s.kernel.Live 2 := by
    show (s.kernel.table.slots 2).state ≠ .unused
    rw [htab]
    decide
  have hcareful : (s.inKernel L t).Careful L s.kernel.cur (.wait dataVa) := by
    refine ⟨.inr (by decide), fun z hz' q hqz hq _ => ?_⟩
    obtain rfl : 2 = z := Option.some.inj (hz.symm.trans hz')
    rcases hlive q hq with rfl | rfl | rfl
    · exact hheir.idle
    · exact hheir.shell
    · exact absurd rfl hqz
  -- the status lies in the program, and the child has the heap of a first process
  obtain ⟨k₁, hstore, hw, -⟩ := ht.code.storeBytes (x := 64)
    (l := (List.range 4).map (byteOf ((s.inKernel L t).procs 2).exitCode)) ht.running (by simp)
  have hr₁ := ht.running.userWrites hw
  have hl₁ : k₁.Live 2 := hw.live.mpr hl
  have hrounds : ∃ n, k₁.freeRounds 2 = .ok n := by
    unfold freeRounds
    rw [hr₁.globals.stackTop, show (k₁.procs 2).heapEnd = 0x3001000 by rw [hw.procs]; exact hheir.heap]
    exact ⟨_, rfl⟩
  obtain ⟨n, hn⟩ := hrounds
  obtain ⟨k', hfreed⟩ := freeProc_total hr₁.toInv hl₁ (hr₁.full 2 hl₁) hn
  have hsys : (s.inKernel L t).handleSyscall L tinyFs s.input t.now (.wait dataVa) =
      .ok (.value ((s.inKernel L t).procs 2).pid, k', s.input) := by
    have hz' : (s.inKernel L t).findZombie = some 2 := hz
    have hstatus : (s.inKernel L t).storeStatus L dataVa ((s.inKernel L t).procs 2).exitCode = .ok k₁ := hstore
    have hpid : (k₁.procs 2).pid = ((s.inKernel L t).procs 2).pid := by rw [hw.procs]
    simp only [Kernel.handleSyscall, Kernel.sysWait, hz', hstatus, ok_bind, hfreed, hpid]
  exact ⟨s₀, s, _, l, t, hstart, hrun,
    ⟨⟨ht.runs, trap_value ht.cause hcall hsys⟩, careful_of hreq hcareful⟩, hreq, hz⟩

end Machine

end RiscvOs
