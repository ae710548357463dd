import RiscvOs.Lemmas.Lifecycle

/-!
# The process that runs

What holds while a process runs, and that it still holds when the process has trapped: its stores go to its
own pages, and its registers are in both of its trap frames.
-/

namespace RiscvOs

open ByteMem Outcome Kernel

variable {L : Layout} {k k' : Kernel} {F F' : List Nat} {i c : Fin procsMax} {m m' : Mem} {f : Frame}
  {s s' : Machine} {t : Trap} {pg tf root va x : Nat} {v : Vpn} {bytes : Nat → UInt8}

/-! ## Trap frames -/

@[simp] theorem loadFrame_apply (m : Mem) (a : Nat) (j : Fin 32) :
    loadFrame m a j = BitVec.ofNat 64 (tfWord m a j) := rfl

theorem loadFrame_congr (h : ∀ a, tf ≤ a → a < tf + frameSize → m' a = m a) :
    loadFrame m' tf = loadFrame m tf :=
  funext fun j => by rw [loadFrame_apply, loadFrame_apply, tfWord_congr h j.isLt]

@[simp] theorem epilogue_pc {sepc : BitVec 64} : epilogue L m i sepc tfPc = sepc := by
  unfold epilogue
  rw [Function.update_self]

/-- What is stored in a trap frame is loaded from it. -/
theorem loadFrame_storeFrame (m : Mem) (a : Nat) (f : Frame) : loadFrame (storeFrame m a f) a = f := by
  funext j
  have hword : tfWord (storeFrame m a f) a j = (f j).toNat := by
    have hstore : load64 (storeFrame m a f) (a + 8 * j) = load64 (store64 m (a + 8 * j) (f j).toNat) (a + 8 * j) := by
      refine load64_congr fun x h1 h2 => ?_
      rw [storeFrame, write_inside (by omega) (by unfold frameSize; omega), store64, write_inside h1 h2]
      have hj : (x - a) / 8 = j := by omega
      have hb : (x - a) % 8 = x - (a + 8 * j) := by omega
      rw [hj, hb, show Fin.ofNat 32 (j : Nat) = j from Fin.ofNat_val_eq_self j]
    rw [tfWord, hstore, load64_store64_of_lt (f j).isLt]
  rw [loadFrame_apply, hword, BitVec.ofNat_toNat, BitVec.setWidth_eq]

theorem loadFrame_memcpy (m : Mem) (a b : Nat) : loadFrame (memcpy m a b frameSize) a = loadFrame m b :=
  funext fun j => by rw [loadFrame_apply, loadFrame_apply, tfWord_memcpy j.isLt]

theorem loadFrame_setTfWord {j : Nat} (hj : j < 32) (v : Nat) :
    loadFrame (setTfWord m tf j v) tf =
      Function.update (loadFrame m tf) (Fin.ofNat 32 j) (BitVec.ofNat 64 v) := by
  funext l
  have hval : ((Fin.ofNat 32 j : Fin 32) : Nat) = j := Nat.mod_eq_of_lt hj
  rw [loadFrame_apply]
  by_cases hl : l = Fin.ofNat 32 j
  · subst hl
    rw [Function.update_self, hval, tfWord_setTfWord_self]
    exact BitVec.eq_of_toNat_eq (by simp)
  · rw [Function.update_of_ne hl, tfWord_setTfWord_ne fun he => hl (Fin.ext (he.trans hval.symm)),
      loadFrame_apply]

namespace Kernel

/-- The trap frames of process `i` hold its registers after it has entered the kernel. -/
theorem enter_frames (hp : ProcOk L k.phys F i (k.procs i)) :
    loadFrame (k.enter L i f).phys.mem (L.tfStackFrame i) = f ∧
      loadFrame (k.enter L i f).phys.mem (k.procs i).tf = f := by
  refine ⟨?_, (loadFrame_memcpy _ _ _).trans (loadFrame_storeFrame _ _ _)⟩
  rcases hp.tf_cases with he | ⟨_, hpage⟩
  · show loadFrame (memcpy _ (k.procs i).tf (L.tfStackFrame i) frameSize) (L.tfStackFrame i) = f
    rw [he, memcpy_self]
    exact loadFrame_storeFrame _ _ _
  · refine (loadFrame_congr fun a h1 h2 => memcpy_outside ?_).trans (loadFrame_storeFrame _ _ _)
    have := tfStackFrame_lt L i
    have := hpage.ge
    omega

/-! ## The invariant of the machine -/

/-- Process `c` runs, in a state that is well formed. -/
structure Running (L : Layout) (k : Kernel) (F : List Nat) (c : Fin procsMax) : Prop extends k.Valid L F where
  current : k.currentProc = some c
  live : k.Live c
  active : k.satp = (k.procs c).pageTable
  idleProc : k.idleProc = 0

namespace Running

variable (h : Running L k F c)
include h

theorem cur : k.cur = c := cur_eq h.current

theorem pageTable : (k.procs c).pageTable ≠ 0 := h.full c h.live

theorem procOk : ProcOk L k.phys F c (k.procs c) := h.proc c h.live

theorem spaceOk : SpaceOk L k.phys F (k.procs c).pageTable := h.procOk.spaceOk h.pageTable

theorem spaceMap : SpaceMap L k.phys.mem (k.procs c).pageTable := h.procOk.map h.pageTable

theorem userWrites (hw : UserWrites k c k') : Running L k' F c where
  toValid := hw.valid h.toValid h.live
  current := by rw [hw.state]; exact h.current
  live := hw.live.mpr h.live
  active := by rw [hw.state]; exact h.active
  idleProc := by rw [hw.state]; exact h.idleProc

theorem enter : Running L (k.enter L c f) F c where
  toValid := h.toValid.enter h.live
  current := rfl
  live := h.live
  active := rfl
  idleProc := h.idleProc

/-- A store below free RAM, where the variables and the stacks of the kernel are. -/
theorem lowWrite (hm : ∀ a, L.freeRam ≤ a → m a = k.phys.mem a) :
    Running L { k with phys := { k.phys with mem := m } } F c := by
  have hinv : Inv L { k with phys := { k.phys with mem := m } } F :=
    h.write (W := (· < L.freeRam)) rfl rfl (fun a ha => hm a (by
      have := Nat.div_mul_le_self a 4096
      unfold pageOf at ha
      omega)) fun pg hlow => ⟨fun hav => absurd (h.ok.isPage hav).ge (by omega), fun i hl hpt ht =>
        absurd (((h.proc i hl).spaceOk hpt).page pg ht.inSpace).1.ge (by omega)⟩
  exact {
    toInv := hinv
    full := h.full
    stack := h.stack
    idle := h.idle
    globals := ⟨h.globals.stackTop, h.globals.stackBottom, h.globals.heapStart, h.globals.heapEnd⟩
    current := h.current
    live := h.live
    active := h.active
    idleProc := h.idleProc }

theorem setResult (a0 : Nat) : Running L (Machine.setResult L k c a0) F c :=
  h.lowWrite fun a ha => store64_outside (by
    have := tfStackFrame_lt L c
    unfold tfA0 frameSize at *
    omega)

/-- A step that leaves memory alone and the parts of the processes that have to do with it. -/
theorem relabel (hphys : k'.phys = k.phys) (hs : ∀ i, Same (k.procs i) (k'.procs i)) (hg : k'.Globals)
    (hcur : k'.currentProc = k.currentProc) (hsatp : k'.satp = k.satp) (hidle : k'.idleProc = k.idleProc) :
    Running L k' F c where
  toValid := h.toValid.relabel hphys hs hg
  current := hcur.trans h.current
  live := (hs c).live.mpr h.live
  active := by
    rw [hsatp, h.active]
    exact (hs c).pageTable.symm
  idleProc := hidle.trans h.idleProc

theorem sysExit (code : Nat) : Running L (k.sysExit code) F c :=
  h.relabel rfl (sysExit_same (h.cur.symm ▸ h.live)) (h.toValid.sysExit (h.cur.symm ▸ h.live)).globals rfl rfl rfl

theorem setInbox (i : Fin procsMax) (msg : IpcMessage) : Running L (k.setInbox i msg) F c :=
  h.relabel rfl (setInbox_same i msg)
    ⟨h.globals.stackTop, h.globals.stackBottom, h.globals.heapStart, h.globals.heapEnd⟩ rfl rfl rfl

theorem yield_stay (hs : ¬k.table.Switches) : Running L (k.yield L).1 F c := by
  have hy : (k.yield L).1 = k.changeState k.cur .running .runnable := by
    have hp : (k.changeState k.cur .running .runnable).table = k.table.preempted := table_changeState
    unfold Kernel.yield
    simp only [pickNext_eq, hp]
    rw [if_pos (show k.table.preempted.next = k.cur from not_not.mp hs)]
  have hrest : ∀ i a b, (k.changeState i a b).currentProc = k.currentProc ∧
      (k.changeState i a b).satp = k.satp ∧ (k.changeState i a b).idleProc = k.idleProc := fun i a b => by
    unfold changeState
    split <;> exact ⟨rfl, rfl, rfl⟩
  have hsame := yield_same L k c
  refine ⟨h.toValid.yield, ?_, hsame.live.mpr h.live, ?_, ?_⟩
  · rw [hy, (hrest _ _ _).1, h.current]
  · rw [hsame.pageTable, hy, (hrest _ _ _).2.1, h.active]
  · rw [hy, (hrest _ _ _).2.2, h.idleProc]

/-- `yield` leaves the kernel through the process it has chosen. -/
theorem yield_switch (hs : k.table.Switches) :
    Running L (k.yield L).1 F k.table.preempted.next := by
  have ht : (k.yield L).1.table = k.table.yield := yield_table
  have hcur : (k.yield L).1.table.currentProc = some k.table.preempted.next := by
    rw [ht, Table.yield, if_pos hs]
  have hidle : (k.yield L).1.idleProc = 0 := by
    have : (k.yield L).1.table.idle = k.table.idle := by rw [ht, Table.yield_idle]
    exact this.trans h.idleProc
  have hsame := yield_same L k k.table.preempted.next
  have hlive : k.Live k.table.preempted.next := by
    rcases k.table.preempted.next_runnable with hn | hn
    · have hi : k.table.preempted.next = 0 := by
        rw [hn]
        exact (Table.idle_changeState).trans h.idleProc
      rw [hi]
      exact h.idle.1
    · have hu : (k.table.slots k.table.preempted.next).state ≠ .unused := by
        rw [ne_eq, ← (Table.preempted_rescheduled _).state_iff (by simp) (by simp), hn]
        simp
      exact hu
  refine ⟨h.toValid.yield, hcur, hsame.live.mpr hlive, ?_, hidle⟩
  have hp : (k.changeState k.cur .running .runnable).table = k.table.preempted := table_changeState
  unfold Kernel.yield
  simp only [pickNext_eq, hp]
  rw [if_neg (show k.table.preempted.next ≠ k.cur from hs)]

end Running

/-- The shell runs after boot. -/
theorem Booted.running (h : Booted L k F) : Running L k F 1 where
  toValid := h.toValid
  current := h.current
  live := h.live_shell
  active := h.active
  idleProc := h.idleProc

/-! ## Accesses of the process -/

/-- The user has all rights on the page behind `va`. -/
theorem translate_of_code {mask : Nat} (h : CodeLeaf (leafAt m root (vpn va))) (hva : va < 2 ^ 38)
    (hf : userFrame (leafAt m root (vpn va)) = some pg)
    (hmask : mask = pteR ∨ mask = pteW ∨ mask = pteX ∨ mask = pteU) :
    Phys.translate m root va mask = some (pg + va % 4096) := by
  obtain ⟨pg', hu⟩ := h.user
  have hbits : pteHas (leafAt m root (vpn va)) pteV && pteHas (leafAt m root (vpn va)) pteU := by
    unfold userFrame at hf
    split at hf
    · assumption
    · cases hf
  rw [Bool.and_eq_true] at hbits
  have hright : pteHas (leafAt m root (vpn va)) mask := by
    rcases hmask with rfl | rfl | rfl | rfl
    · exact hu.readable
    · exact hu.writable
    · exact h.executable
    · exact hbits.2
  have hpg : pte2pa (leafAt m root (vpn va)) = pg := by
    rw [userFrame, hbits.1, hbits.2] at hf
    exact Option.some.inj hf
  unfold Phys.translate
  rw [leafPte_eq, if_pos, hpg]
  simp only [hbits.1, hright, Bool.and_true, Bool.or_eq_true, decide_eq_true_eq]
  exact .inl hva

end Kernel

/-- What the process can access lies in its own frames. -/
theorem translate_user {a : Nat} (h : Phys.translate m root va pteU = some a) :
    ∃ pg, userFrame (leafAt m root (vpn va)) = some pg ∧ a = pg + va % 4096 := by
  unfold Phys.translate at h
  rw [leafPte_eq] at h
  simp only [Option.ite_none_right_eq_some, Bool.and_eq_true, Option.some.injEq] at h
  obtain ⟨⟨⟨_, hv⟩, hu⟩, rfl⟩ := h
  exact ⟨pte2pa (leafAt m root (vpn va)), by simp [userFrame, hv, hu], rfl⟩

theorem Machine.userAccess_user {mask a : Nat} (h : Machine.userAccess k va mask = some a) :
    ∃ pg, userFrame (leafAt k.phys.mem k.satp (vpn va)) = some pg ∧ a = pg + va % 4096 := by
  unfold Machine.userAccess at h
  split at h
  · rename_i hu
    obtain ⟨b, hb⟩ := Option.isSome_iff_exists.mp hu
    obtain ⟨pg, hf, rfl⟩ := translate_user hb
    refine ⟨pg, hf, ?_⟩
    unfold Phys.translate at h hb
    simp only [Option.ite_none_right_eq_some, Option.some.injEq] at h hb
    rw [← h.2, hb.2]
  · cases h

namespace Machine

/-- What the process can access lies in its address space. -/
theorem userAccess_inSpace {mask a : Nat} (hs : SpaceOk L k.phys F k.satp) (h : userAccess k va mask = some a) :
    InSpace k.phys.mem k.satp (pageOf a) := by
  obtain ⟨pg, hf, rfl⟩ := userAccess_user h
  have hp := (hs.page pg (inSpace_of_frame hf)).1
  rw [(pageOf_eq_iff hp.aligned).mpr ⟨by omega, by omega⟩]
  exact inSpace_of_frame hf

/-- What it can access depends on its pages only. -/
theorem userAccess_congr {mask : Nat} (hs : SpaceOk L k.phys F k.satp) (hsatp : k'.satp = k.satp)
    (hm : ∀ a, InSpace k.phys.mem k.satp (pageOf a) → k'.phys.mem a = k.phys.mem a) :
    userAccess k' va mask = userAccess k va mask := by
  have hleaf : leafAt k'.phys.mem k.satp = leafAt k.phys.mem k.satp :=
    leafAt_congr (fun a ha => hm a ha.inSpace) fun _ => hs.tables.aligned
  unfold userAccess Phys.translate
  rw [hsatp, leafPte_eq, leafPte_eq, hleaf]

@[simp] theorem goOn_pc {input : List UInt8} {sstatus sepc : BitVec 64} :
    (goOn L k i input sstatus sepc).user tfPc = sepc :=
  (epilogue_pc : epilogue L k.phys.mem i sepc tfPc = sepc)

/-- The stores of the process that runs go to its own frames. -/
theorem stores_userWrites (h : Running L k F c)
    (hst : ∀ a, m a ≠ k.phys.mem a → L.freeRam ≤ a ∧ ∃ va, userAccess k va pteW = some a) :
    UserWrites k c { k with phys := { k.phys with mem := m } } := by
  refine ⟨rfl, fun a ha => Classical.byContradiction fun hne => ha ?_⟩
  obtain ⟨_, va, hva⟩ := hst a hne
  obtain ⟨pg, hf, rfl⟩ := userAccess_user hva
  rw [h.active] at hf
  have hp := (h.spaceOk.page pg (inSpace_of_frame hf)).1
  have ho : pageOf (pg + va % 4096) = pg := (pageOf_eq_iff hp.aligned).mpr ⟨by omega, by omega⟩
  exact ⟨vpn va, by rw [ho]; exact hf⟩

theorem Runs.userWrites (hr : s.Runs L t) (h : Running L s.kernel F c) : UserWrites s.kernel c (s.atTrap t) :=
  stores_userWrites h hr.stores

/-- The invariant still holds when `trap_handler` looks at the cause. -/
theorem Runs.inKernel (hr : s.Runs L t) (h : Running L s.kernel F c) : Running L (s.inKernel L t) F c := by
  have hw : Running L (s.atTrap t) F c := h.userWrites (hr.userWrites h)
  unfold Machine.inKernel
  rw [h.cur]
  exact hw.enter

end Machine

end RiscvOs
