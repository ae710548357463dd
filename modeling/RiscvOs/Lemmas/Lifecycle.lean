import RiscvOs.Theorems.Isolation

/-!
# Every trap is an event of the process table

What each function of the kernel does to the process table, and from it that a trap changes the table as one
event does.
-/

namespace RiscvOs

open ByteMem Outcome

/-! ## The table of a kernel -/

def Proc.slot (p : Proc) : Slot where
  pid := p.pid
  state := p.state
  parent := p.parent
  exitCode := p.exitCode
  inbox := p.inbox

def Kernel.table (k : Kernel) : Table where
  slots := fun i => (k.procs i).slot
  count := k.processCount
  currentProc := k.currentProc
  idle := k.idleProc

variable {L : Layout} {fs : Initramfs} {k k' : Kernel} {i c d : Fin procsMax} {p : Proc} {ret : SysRet}
  {va : Nat} {input input' now : List UInt8} {m : Mem}

namespace Kernel

@[simp] theorem table_setProc : (k.setProc i p).table = k.table.set i p.slot := by
  have hslots : (fun j => ((k.setProc i p).procs j).slot) = Function.update k.table.slots i p.slot := by
    funext j
    by_cases h : j = i
    · subst h
      simp [setProc]
    · simp [setProc, table, h]
  unfold table Table.set at *
  rw [hslots]
  rfl

/-- A change of other fields of a process. -/
theorem table_setProc_self (h : p.slot = (k.procs i).slot) : (k.setProc i p).table = k.table := by
  rw [table_setProc, h]
  exact Table.set_self k.table i

@[simp] theorem table_changeState {a b : PState} :
    (k.changeState i a b).table = k.table.changeState i a b := by
  unfold changeState Table.changeState
  by_cases h : (k.procs i).state = a
  · rw [if_pos h, if_pos (show (k.table.slots i).state = a from h), table_setProc]
    rfl
  · rw [if_neg h, if_neg (show (k.table.slots i).state ≠ a from h)]

theorem pickNext_eq : k.pickNext = k.table.next := rfl

/-- `yield` on the table. -/
theorem yield_table : (k.yield L).1.table = k.table.yield := by
  have hp : (k.changeState k.cur .running .runnable).table = k.table.preempted := table_changeState
  have hsecond : (k.changeState k.cur .running .runnable).changeState k.cur .running .runnable =
      k.changeState k.cur .running .runnable := by
    have hne : ((k.changeState k.cur .running .runnable).table.slots k.cur).state ≠ .running :=
      hp ▸ Table.preempted_ne_running
    exact if_neg hne
  unfold yield Table.yield
  simp only [pickNext_eq, hp, hsecond]
  by_cases h : k.table.Switches
  · rw [if_neg (show k.table.preempted.next ≠ k.cur from h), if_pos h, ← hp, ← table_changeState]
    rfl
  · rw [if_pos (show k.table.preempted.next = k.cur from not_not.mp h), if_neg h]
    exact hp

theorem yield_switched : (k.yield L).2 = decide k.table.Switches := by
  have hp : (k.changeState k.cur .running .runnable).table = k.table.preempted := table_changeState
  unfold yield
  simp only [pickNext_eq, hp]
  by_cases h : k.table.Switches
  · rw [if_neg (show k.table.preempted.next ≠ k.cur from h)]
    exact (decide_eq_true h).symm
  · rw [if_pos (show k.table.preempted.next = k.cur from not_not.mp h)]
    exact (decide_eq_false h).symm

/-! ## Functions that leave the table alone -/

theorem storeU8_table {b : UInt8} (h : k.storeU8 L va b = .ok k') : k'.table = k.table := by
  unfold storeU8 at h
  split at h
  · obtain ⟨_, h⟩ := ite_error_eq_ok.mp h
    rw [← Except.ok.inj h]
    rfl
  · cases h

theorem storeBytes_table {l : List UInt8} (h : k.storeBytes L va l = .ok k') : k'.table = k.table := by
  induction l generalizing k va with
  | nil => rw [← Except.ok.inj h]
  | cons b l ih =>
      obtain ⟨k₁, h1, h2⟩ := bind_eq_ok.mp h
      rw [ih h2, storeU8_table h1]

theorem storeStatus_table {status code : Nat} (h : k.storeStatus L status code = .ok k') :
    k'.table = k.table := by
  unfold storeStatus at h
  split at h
  · rw [← Except.ok.inj h]
  · exact storeBytes_table h

theorem storeSender_table {senderPid sender : Nat} (h : k.storeSender L senderPid sender = .ok k') :
    k'.table = k.table := by
  unfold storeSender at h
  split at h
  · rw [← Except.ok.inj h]
  · exact storeBytes_table h

theorem copyToUser_table {l : List UInt8} (h : k.copyToUser L va l = .ok (ret, k')) :
    k'.table = k.table ∧ ∃ a0, ret = .value a0 := by
  induction l generalizing k va with
  | nil =>
      simp only [copyToUser, Except.ok.injEq, Prod.mk.injEq] at h
      obtain ⟨rfl, rfl⟩ := h
      exact ⟨rfl, _, rfl⟩
  | cons b l ih =>
      obtain ⟨pa, _, h⟩ := bind_eq_ok.mp h
      split at h
      · simp only [Except.ok.injEq, Prod.mk.injEq] at h
        obtain ⟨rfl, rfl⟩ := h
        exact ⟨rfl, _, rfl⟩
      · obtain ⟨k₁, h1, h2⟩ := bind_eq_ok.mp h
        obtain ⟨ht, hr⟩ := ih h2
        exact ⟨ht.trans (storeU8_table h1), hr⟩

theorem processFreeUserspace_table (h : k.processFreeUserspace i = .ok k') : k'.table = k.table := by
  unfold processFreeUserspace at h
  simp only at h
  split at h
  · rw [← Except.ok.inj h]
  · split at h
    · cases h
    · simp only [bind_eq_ok, Except.ok.injEq] at h
      obtain ⟨s, _, s', _, rfl⟩ := h
      exact table_setProc_self rfl

theorem copyArgs_table {argvBuf argv j n : Nat} (h : k.copyArgs argvBuf argv j n = .ok k') :
    k'.table = k.table := by
  induction n generalizing k j with
  | zero => rw [← Except.ok.inj h]
  | succ n ih =>
      simp only [copyArgs, bind_eq_ok] at h
      obtain ⟨ptr, _, s, _, h⟩ := h
      rw [ih h]
      rfl

theorem copyArgv_table {argvBuf argv : Nat} {argc : Int} (h : k.copyArgv argvBuf argv argc = .ok k') :
    k'.table = k.table := by
  unfold copyArgv at h
  split at h
  · exact copyArgs_table h
  · rw [← Except.ok.inj h]

theorem pushArgs_table {argvBuf n sp sp' : Nat} {ptrs ptrs' : List Nat}
    (h : k.pushArgs L argvBuf n sp ptrs = .ok (sp', ptrs', k')) : k'.table = k.table := by
  induction n generalizing k sp ptrs with
  | zero =>
      simp only [pushArgs, Except.ok.injEq, Prod.mk.injEq] at h
      rw [h.2.2]
  | succ n ih =>
      simp only [pushArgs] at h
      obtain ⟨_, h⟩ := ite_error_eq_ok.mp h
      obtain ⟨k₁, h1, h2⟩ := bind_eq_ok.mp h
      rw [ih h2, storeBytes_table h1]

theorem pushArgv_table {argvBuf sp argvPtr : Nat} {argc : Int}
    (h : k.pushArgv L argvBuf argc = .ok (sp, argvPtr, k')) : k'.table = k.table := by
  unfold pushArgv setupUserArguments at h
  split at h
  · simp only [bind_eq_ok, Prod.exists, Except.ok.injEq, Prod.mk.injEq] at h
    obtain ⟨sp₁, k₁, h1, -, -, rfl⟩ := h
    obtain ⟨_, h1⟩ := ite_error_eq_ok.mp h1
    simp only [bind_eq_ok, Prod.exists] at h1
    obtain ⟨sp₂, ptrs, k₂, h2, h1⟩ := h1
    obtain ⟨_, h1⟩ := ite_error_eq_ok.mp h1
    simp only [bind_eq_ok, Except.ok.injEq, Prod.mk.injEq] at h1
    obtain ⟨k₃, h3, -, rfl⟩ := h1
    rw [storeBytes_table h3, pushArgs_table h2]
  · simp only [Except.ok.injEq, Prod.mk.injEq] at h
    rw [h.2.2]

theorem loadImage_table {elf : Elf} {a : Nat} (h : k.loadImage L elf = .ok (a, k')) :
    k'.table = k.table := by
  unfold loadImage at h
  obtain ⟨_, h⟩ := ite_error_eq_ok.mp h
  simp only [bind_eq_ok, Prod.exists, Except.ok.injEq, Prod.mk.injEq] at h
  obtain ⟨_, _, _, _, _, _, _, _, _, _, _, -, rfl⟩ := h
  rfl

theorem setName_table {name : List UInt8} : (k.setName i name).table = k.table :=
  table_setProc_self (k := k) (i := i) (p := { k.procs i with name := name }) rfl

theorem activate_table {name : List UInt8} : (k.activate L i name).table = k.table := setName_table

theorem setArguments_table {argc : Int} {argvPtr : Nat} :
    (k.setProc i { k.procs i with argc := argc, argvPtr := argvPtr }).table = k.table :=
  table_setProc_self rfl

/-! ## System calls -/

/-- `create_init_process` takes the first slot that is not in use. -/
theorem createInitProcess_table {a n : Nat} (h : k.createInitProcess L a n = .ok (i, k')) :
    k.table.freeSlot = some i ∧ k'.table = k.table.create i := by
  unfold createInitProcess at h
  split at h
  · cases h
  · rename_i c hc
    simp only [bind_eq_ok, Prod.exists, Except.ok.injEq, Prod.mk.injEq] at h
    obtain ⟨pt, s, _, rfl, rfl⟩ := h
    refine ⟨hc, ?_⟩
    rw [table_setProc]
    cases hcur : k.currentProc with
    | none => simp [Table.create, initFrame, hcur, Proc.slot, table, Table.set]
    | some j => simp [Table.create, initFrame, hcur, Proc.slot, table, Table.set]

theorem extractCreate_table {elf : Elf} (h : k.extractFlatBinaryFromElf L elf true = .ok (i, k')) :
    k.table.freeSlot = some i ∧ k'.table = k.table.create i := by
  simp only [extractFlatBinaryFromElf, if_true, bind_eq_ok, Prod.exists] at h
  obtain ⟨a, k₁, h1, h2⟩ := h
  rw [← loadImage_table h1]
  exact createInitProcess_table h2

/-- `exec_process` makes the current process run. -/
theorem extractExec_table {elf : Elf} (h : k.extractFlatBinaryFromElf L elf false = .ok (i, k')) :
    i = k.cur ∧ k'.table = k.table.setState k.cur .running := by
  simp only [extractFlatBinaryFromElf, Bool.false_eq_true, if_false, bind_eq_ok, Prod.exists,
    execProcess, Except.ok.injEq, Prod.mk.injEq] at h
  obtain ⟨a, k₁, h1, pt, s, _, rfl, rfl⟩ := h
  have ht := loadImage_table h1
  have hc : k₁.cur = k.cur := congrArg Table.current ht
  refine ⟨hc, ?_⟩
  rw [table_setProc]
  show k₁.table.set k₁.cur { k₁.table.slots k₁.cur with state := .running } = _
  rw [ht, hc]
  rfl

theorem execElf_table {elf : Elf} {name : List UInt8} {argv : Nat} {argc : Int}
    (h : k.execElf L elf name argv argc = .ok (ret, k')) :
    k'.table = k.table.exec ∧
      ret = if (k.table.setState k.cur .running).Switches then .switched else .value 0 := by
  simp only [execElf, bind_eq_ok, Prod.exists, Except.ok.injEq, Prod.mk.injEq] at h
  obtain ⟨argvBuf, s, _, k₁, h1, k₂, h2, ep, k₃, h3, sp, argvPtr, k₄, h4, rfl, rfl⟩ := h
  have ht1 : k₁.table = k.table := (copyArgv_table h1).trans rfl
  have ht2 : k₂.table = k.table := (processFreeUserspace_table h2).trans ht1
  obtain ⟨_, ht3⟩ := extractExec_table h3
  rw [show k₂.cur = k.cur from congrArg Table.current ht2, ht2] at ht3
  have ht4 : k₄.table = k.table.setState k.cur .running :=
    ((pushArgv_table h4).trans activate_table).trans ht3
  have ht5 : (k₄.execFrame L ep argvBuf sp).table = k.table.setState k.cur .running := ht4
  refine ⟨?_, ?_⟩
  · rw [yield_table, setArguments_table, ht5]
    rfl
  · rw [yield_switched, setArguments_table, ht5]
    simp

theorem sysExec_table {filename argv : Nat} {argc : Int}
    (h : k.sysExec L fs filename argv argc = .ok (ret, k')) :
    (k.tarfsLookup filename fs = .ok none ∧ ret = .value (neg64 1) ∧ k' = k) ∨
      ∃ elf, k.tarfsLookup filename fs = .ok (some elf) ∧ k'.table = k.table.exec ∧
        ret = if (k.table.setState k.cur .running).Switches then .switched else .value 0 := by
  simp only [sysExec, bind_eq_ok] at h
  obtain ⟨name, _, file, hf, h⟩ := h
  cases file with
  | none =>
      simp only [Except.ok.injEq, Prod.mk.injEq] at h
      exact .inl ⟨hf, h.1.symm, h.2.symm⟩
  | some elf => exact .inr ⟨elf, hf, execElf_table h⟩

theorem sysFork_table (h : k.sysFork L = .ok (ret, k')) :
    (k.table.freeSlot = none ∧ ret = .value (neg64 1) ∧ k' = k) ∨
      ∃ c, k.table.freeSlot = some c ∧ ret = .value (c + 1) ∧ k'.table = k.table.fork c := by
  unfold sysFork at h
  split at h
  · rename_i hs
    simp only [Except.ok.injEq, Prod.mk.injEq] at h
    exact .inl ⟨Option.map_eq_none_iff.mp hs, h.1.symm, h.2.symm⟩
  · rename_i c k₁ hs
    obtain ⟨c', hc, heq⟩ := Option.map_eq_some_iff.mp hs
    simp only [Prod.mk.injEq] at heq
    obtain ⟨rfl, rfl⟩ := heq
    simp only [bind_eq_ok, Prod.exists, Except.ok.injEq, Prod.mk.injEq] at h
    obtain ⟨tf, s, _, newPt, s', _, s₁, _, s₂, _, rfl, rfl⟩ := h
    refine .inr ⟨c', hc, ?_, ?_⟩
    · simp [setProc]
    · -- the slot is written twice: when it is taken, and when the child is complete
      have halloc := table_setProc (k := k) (i := c') (p := { pid := c' + 1 })
      rw [table_setProc]
      show { ((k.setProc c' { pid := c' + 1 }).table.set c' _) with count := k.table.count + 1 } = _
      rw [halloc, Table.set_set]
      simp [Table.fork, Table.current, Proc.slot, setProc, table, cur]

/-- The end of `free_proc`. -/
def cleared (k : Kernel) (i : Fin procsMax) (s : Phys) : Kernel :=
  { k with phys := s, processCount := k.processCount - 1 }.setProc i
    { k.procs i with
      state := .unused, pid := 0, parent := none, name := [], heapEnd := 0, userStackTop := 0
      argc := 0, argvPtr := 0 }

theorem cleared_table {s : Phys} : (k.cleared i s).table = k.table.reap i := by
  rw [cleared, table_setProc]
  rfl

theorem freeProc_cleared (h : k.freeProc i = .ok k') :
    ∃ (k₁ : Kernel) (s : Phys), k₁.table = k.table ∧ k' = k₁.cleared i s := by
  unfold freeProc at h
  obtain ⟨k₁, h1, h⟩ := bind_eq_ok.mp h
  have ht : k₁.table = k.table :=
    (processFreeUserspace_table h1).trans (by split <;> exact table_setProc_self rfl)
  exact ⟨k₁, _, ht, (Except.ok.inj h).symm⟩

theorem freeProc_table (h : k.freeProc i = .ok k') : k'.table = k.table.reap i := by
  obtain ⟨k₁, s, ht, rfl⟩ := freeProc_cleared h
  rw [cleared_table, ht]

theorem sysExit_table (code : Nat) : (k.sysExit code).table = k.table.exit code := by
  rw [sysExit, table_setProc]
  rfl

/-- `sys_wait` frees a child, or it is left. -/
theorem sysWait_table {status : Nat} (h : k.sysWait L status = .ok (ret, k')) :
    (∃ z, k.table.findZombie = some z ∧ ret = .value (k.table.slots z).pid ∧ k'.table = k.table.reap z) ∨
      k.table.findZombie = none ∧ k.table.Switches ∧ ret = .switched ∧ k' = (k.yield L).1 := by
  unfold sysWait at h
  split at h
  · rename_i z hz
    simp only [bind_eq_ok, Except.ok.injEq, Prod.mk.injEq] at h
    obtain ⟨k₁, h1, k₂, h2, rfl, rfl⟩ := h
    have ht := storeStatus_table h1
    refine .inl ⟨z, hz, ?_, (freeProc_table h2).trans (by rw [ht])⟩
    rw [← ht]
    rfl
  · rename_i hz
    have hs := yield_switched (k := k) (L := L)
    split at h
    · rename_i k₁ hy
      simp only [Except.ok.injEq, Prod.mk.injEq] at h
      rw [hy] at hs
      exact .inr ⟨hz, of_decide_eq_true hs.symm, h.1.symm, by rw [hy, h.2]⟩
    · cases h

/-! ## Console -/

/-- The loop of `sys_read` leaves through `yield`, or `yield` comes back each time. -/
theorem readLoop_table {buf j n : Nat} (h : k.readLoop L buf j n input = .ok (ret, k', input')) :
    (ret = .switched ∧ k.table.Switches ∧ k'.table = k.table.yield) ∨
      ∃ m, ret = .value m ∧ (k'.table = k.table ∨ ¬k.table.Switches ∧ k'.table = k.table.yield) := by
  induction n generalizing k j input with
  | zero =>
      simp only [readLoop, Except.ok.injEq, Prod.mk.injEq] at h
      exact .inr ⟨j, h.1.symm, .inl (by rw [h.2.1])⟩
  | succ n ih =>
      cases input with
      | nil => cases h
      | cons a input =>
          simp only [readLoop, bind_eq_ok] at h
          obtain ⟨k₁, h1, h⟩ := h
          have ht := storeU8_table h1
          split at h
          · simp only [Except.ok.injEq, Prod.mk.injEq] at h
            exact .inr ⟨_, h.1.symm, .inl (by rw [← h.2.1, ht])⟩
          · have hy := yield_table (k := k₁) (L := L)
            have hs := yield_switched (k := k₁) (L := L)
            rw [ht] at hy hs
            split at h
            · rename_i k₂ hk
              simp only [Except.ok.injEq, Prod.mk.injEq] at h
              rw [hk] at hy hs
              exact .inl ⟨h.1.symm, of_decide_eq_true hs.symm, by rw [← h.2.1, hy]⟩
            · rename_i k₂ hk
              rw [hk] at hy hs
              have hns : ¬k.table.Switches := of_decide_eq_false hs.symm
              have hy' : k₂.table = k.table.preempted := hy.trans (Table.yield_of_not_switches hns)
              have hns' : ¬k₂.table.Switches := by rwa [hy', Table.switches_preempted]
              rcases ih h with ⟨_, hs', _⟩ | ⟨m, hm, hk' | ⟨_, hk'⟩⟩
              · exact absurd hs' hns'
              · exact .inr ⟨m, hm, .inr ⟨hns, hk'.trans hy⟩⟩
              · refine .inr ⟨m, hm, .inr ⟨hns, ?_⟩⟩
                rw [hk', Table.yield_of_not_switches hns', hy', Table.preempted_preempted,
                  Table.yield_of_not_switches hns]

theorem sysRead_table {fd buf len : Nat} (h : k.sysRead L fd buf len input = .ok (ret, k', input')) :
    (ret = .switched ∧ k.table.Switches ∧ k'.table = k.table.yield) ∨
      ∃ m, ret = .value m ∧ (k'.table = k.table ∨ ¬k.table.Switches ∧ k'.table = k.table.yield) := by
  unfold sysRead at h
  split at h
  · simp only [Except.ok.injEq, Prod.mk.injEq] at h
    exact .inr ⟨_, h.1.symm, .inl (by rw [h.2.1])⟩
  · exact readLoop_table h

/-! ## Messages -/

theorem loadBytes_length {n : Nat} {l : List UInt8} (h : k.loadBytes va n = .ok l) : l.length = n := by
  induction n generalizing va l with
  | zero => rw [← Except.ok.inj h, List.length_nil]
  | succ n ih =>
      simp only [loadBytes, bind_eq_ok, Except.ok.injEq] at h
      obtain ⟨b, _, bs, h2, rfl⟩ := h
      rw [List.length_cons, ih h2]

theorem getProcByPid_eq_some {pid : Int} : getProcByPid pid = some d ↔ pid = (d : Nat) + 1 := by
  have hd := d.isLt
  unfold getProcByPid
  simp only [procsMax] at *
  constructor
  · intro h
    split at h
    · rw [← Option.some.inj h]
      simp only
      omega
    · cases h
  · rintro rfl
    rw [dif_pos (by omega)]
    exact congrArg some (Fin.ext (by simp))

/-- `sys_ipc_send` refuses the message, or an empty inbox takes it. -/
theorem sysIpcSend_table {destPid : Int} {buf size : Nat} (h : k.sysIpcSend destPid buf size = .ok (ret, k')) :
    (k' = k ∧ (ret = .value (neg64 1) ∨ ret = .value (neg64 2))) ∨
      ∃ (d : Fin procsMax) (bytes : List UInt8), destPid = (d : Nat) + 1 ∧ destPid < procsMax ∧
        (k.procs d).inbox.pending = false ∧ size ≤ maxMsgSize ∧ k.loadBytes buf size = .ok bytes ∧ ret = .value 0 ∧
        k'.table = (Table.Event.send d bytes).run k.table := by
  unfold sysIpcSend at h
  split at h
  · simp only [Except.ok.injEq, Prod.mk.injEq] at h
    exact .inl ⟨h.2.symm, .inl h.1.symm⟩
  · rename_i hr
    split at h
    · cases h
    · rename_i d hd
      split at h
      · simp only [Except.ok.injEq, Prod.mk.injEq] at h
        exact .inl ⟨h.2.symm, .inr h.1.symm⟩
      · rename_i hsize
        split at h
        · simp only [Except.ok.injEq, Prod.mk.injEq] at h
          exact .inl ⟨h.2.symm, .inr h.1.symm⟩
        · rename_i hp
          simp only [bind_eq_ok, Except.ok.injEq, Prod.mk.injEq] at h
          obtain ⟨bytes, hb, rfl, rfl⟩ := h
          refine .inr ⟨d, bytes, getProcByPid_eq_some.mp hd, by omega, by simpa using hp, by omega, hb, rfl, ?_⟩
          rw [setInbox, table_setProc]
          rfl

/-- `sys_ipc_recv` finds nothing, or it empties the inbox. -/
theorem sysIpcRecv_table {buf maxSize senderPid : Nat}
    (h : k.sysIpcRecv L buf maxSize senderPid = .ok (ret, k')) :
    (k' = k ∧ ret = .value (neg64 1) ∧ (k.procs k.cur).inbox.pending = false) ∨
      (k.procs k.cur).inbox.pending = true ∧ k'.table = Table.Event.recv.run k.table ∧
        ret = .value (if min (k.procs k.cur).inbox.size maxSize = 1 then neg64 1
          else sext32 (min (k.procs k.cur).inbox.size maxSize)) := by
  simp only [sysIpcRecv] at h
  split at h
  · rename_i hp
    simp only [Except.ok.injEq, Prod.mk.injEq] at h
    exact .inl ⟨h.2.symm, h.1.symm, by simpa using hp⟩
  · rename_i hp
    simp only [bind_eq_ok, Except.ok.injEq, Prod.mk.injEq] at h
    obtain ⟨k₁, h1, k₂, h2, rfl, rfl⟩ := h
    have ht : k₂.table = k.table := (storeSender_table h2).trans (storeBytes_table h1)
    refine .inr ⟨by simpa using hp, ?_, rfl⟩
    rw [setInbox, table_setProc, ht, show k₂.cur = k.cur from congrArg Table.current ht]
    have hslot : (k₂.procs k.cur).slot = (k.procs k.cur).slot := congrFun (congrArg Table.slots ht) k.cur
    show k.table.set k.cur { (k₂.procs k.cur).slot with inbox := _ } = _
    rw [hslot]
    rfl

end Kernel

/-! ## Every system call is an event -/

/-- The calls that do nothing to the process table. -/
def Call.Quiet : Call → Prop
  | .write _ _ _ | .sysinfo _ | .time _ | .sbrk _ | .log _ | .tarfsExists _ | .putchar _ | .ps | .ls | .clear =>
    True
  | _ => False

/-- What a system call in the state `k` may return, and the event it is. -/
inductive Effect (fs : Initramfs) (k : Kernel) : Call → SysRet → Table.Event → Prop
  | quiet {call : Call} {a0 : Nat} (h : call.Quiet) : Effect fs k call (.value a0) .stay
  | read {fd buf len a0 : Nat} : Effect fs k (.read fd buf len) (.value a0) .stay
  | readOn {fd buf len a0 : Nat} (h : ¬k.table.Switches) : Effect fs k (.read fd buf len) (.value a0) .yield
  | readLeft {fd buf len : Nat} (h : k.table.Switches) : Effect fs k (.read fd buf len) .switched .yield
  | yield : Effect fs k .yield (if k.table.Switches then .switched else .value 0) .yield
  | forkNone (h : k.table.freeSlot = none) : Effect fs k .fork (.value (neg64 1)) .stay
  | fork {c : Fin procsMax} (h : k.table.freeSlot = some c) : Effect fs k .fork (.value (c + 1)) (.fork c)
  | execNone {filename argv : Nat} {argc : Int} (h : k.tarfsLookup filename fs = .ok none) :
      Effect fs k (.exec filename argv argc) (.value (neg64 1)) .stay
  | exec {filename argv : Nat} {argc : Int} {elf : Elf} (h : k.tarfsLookup filename fs = .ok (some elf)) :
      Effect fs k (.exec filename argv argc)
        (if (k.table.setState k.cur .running).Switches then .switched else .value 0) .exec
  | exit {code : Nat} : Effect fs k (.exit code) (.value 0) (.exit code)
  | wait {status : Nat} {z : Fin procsMax} (h : k.table.findZombie = some z) :
      Effect fs k (.wait status) (.value (k.table.slots z).pid) (.reap z)
  | waitLeft {status : Nat} (h : k.table.findZombie = none) (hs : k.table.Switches) :
      Effect fs k (.wait status) .switched .yield
  | sendNone {destPid : Int} {buf size a0 : Nat} (hs : k.sysIpcSend destPid buf size = .ok (.value a0, k))
      (h : a0 = neg64 1 ∨ a0 = neg64 2) :
      Effect fs k (.ipcSend destPid buf size) (.value a0) .stay
  | send {destPid : Int} {buf size : Nat} {d : Fin procsMax} {bytes : List UInt8}
      (hd : destPid = (d : Nat) + 1) (hlt : destPid < procsMax) (hp : (k.procs d).inbox.pending = false)
      (hsize : size ≤ maxMsgSize) (hb : k.loadBytes buf size = .ok bytes) :
      Effect fs k (.ipcSend destPid buf size) (.value 0) (.send d bytes)
  | recvNone {buf maxSize senderPid : Nat} (h : (k.procs k.cur).inbox.pending = false) :
      Effect fs k (.ipcRecv buf maxSize senderPid) (.value (neg64 1)) .stay
  | recv {buf maxSize senderPid : Nat} (h : (k.procs k.cur).inbox.pending = true) :
      Effect fs k (.ipcRecv buf maxSize senderPid)
        (.value (if min (k.procs k.cur).inbox.size maxSize = 1 then neg64 1
          else sext32 (min (k.procs k.cur).inbox.size maxSize))) .recv

variable {call : Call} {ev : Table.Event}

theorem Effect.enabled (h : Effect fs k call ret ev) : ev.Enabled k.table := by
  cases h with
  | fork h => exact h
  | wait h => exact h
  | send hd hlt hp hsize hb => exact ⟨hp, (Kernel.loadBytes_length hb).trans_le hsize⟩
  | recv h => exact h
  | _ => exact trivial

namespace Kernel

theorem sysSbrk_table {increment : Int} (h : k.sysSbrk L increment = .ok (ret, k')) :
    k'.table = k.table ∧ ∃ a0, ret = .value a0 := by
  simp only [sysSbrk] at h
  split at h
  · simp only [bind_eq_ok, Except.ok.injEq, Prod.mk.injEq] at h
    obtain ⟨s, _, rfl, rfl⟩ := h
    exact ⟨table_setProc_self rfl, _, rfl⟩
  · simp only [Except.ok.injEq, Prod.mk.injEq] at h
    obtain ⟨rfl, rfl⟩ := h
    exact ⟨table_setProc_self rfl, _, rfl⟩

theorem sysWrite_value {fd buf len : Nat} {out : List UInt8} (h : k.sysWrite fd buf len = .ok (ret, out)) :
    ∃ a0, ret = .value a0 := by
  unfold sysWrite at h
  split at h
  · simp only [Except.ok.injEq, Prod.mk.injEq] at h
    exact ⟨_, h.1.symm⟩
  · simp only [bind_eq_ok, Except.ok.injEq, Prod.mk.injEq] at h
    obtain ⟨_, _, rfl, _⟩ := h
    exact ⟨_, rfl⟩

theorem sysLog_value {msg : Nat} {text : List UInt8} (h : k.sysLog msg = .ok (ret, text)) :
    ∃ a0, ret = .value a0 := by
  unfold sysLog at h
  split at h
  · simp only [Except.ok.injEq, Prod.mk.injEq] at h
    exact ⟨_, h.1.symm⟩
  · simp only [bind_eq_ok, Except.ok.injEq, Prod.mk.injEq] at h
    obtain ⟨_, _, rfl, _⟩ := h
    exact ⟨_, rfl⟩

/-- What `handle_syscall` does to the process table. -/
theorem handleSyscall_effect (h : k.handleSyscall L fs input now call = .ok (ret, k', input')) :
    ∃ ev, Effect fs k call ret ev ∧ k'.table = ev.run k.table := by
  cases call with
  | read fd buf len =>
      rcases sysRead_table h with ⟨rfl, hs, ht⟩ | ⟨m, rfl, ht | ⟨hs, ht⟩⟩
      · exact ⟨.yield, .readLeft hs, ht⟩
      · exact ⟨.stay, .read, ht⟩
      · exact ⟨.yield, .readOn hs, ht⟩
  | yield =>
      simp only [handleSyscall, Except.ok.injEq, Prod.mk.injEq, yield_switched, decide_eq_true_eq] at h
      obtain ⟨rfl, rfl, _⟩ := h
      exact ⟨.yield, .yield, yield_table⟩
  | exit code =>
      simp only [handleSyscall, Except.ok.injEq, Prod.mk.injEq] at h
      obtain ⟨rfl, rfl, _⟩ := h
      exact ⟨.exit code, .exit, sysExit_table code⟩
  | clear | putchar ch | ps | ls =>
      simp only [handleSyscall, Except.ok.injEq, Prod.mk.injEq] at h
      obtain ⟨rfl, rfl, _⟩ := h
      exact ⟨.stay, .quiet trivial, rfl⟩
  | write fd buf len =>
      simp only [handleSyscall, bind_eq_ok, Prod.exists, Except.ok.injEq, Prod.mk.injEq] at h
      obtain ⟨_, _, h1, rfl, rfl, _⟩ := h
      obtain ⟨a0, rfl⟩ := sysWrite_value h1
      exact ⟨.stay, .quiet trivial, rfl⟩
  | log msg =>
      simp only [handleSyscall, bind_eq_ok, Prod.exists, Except.ok.injEq, Prod.mk.injEq] at h
      obtain ⟨_, _, h1, rfl, rfl, _⟩ := h
      obtain ⟨a0, rfl⟩ := sysLog_value h1
      exact ⟨.stay, .quiet trivial, rfl⟩
  | tarfsExists filename =>
      simp only [handleSyscall, sysTarfsExists, bind_eq_ok, Except.ok.injEq, Prod.mk.injEq] at h
      obtain ⟨_, ⟨_, _, rfl⟩, rfl, rfl, _⟩ := h
      exact ⟨.stay, .quiet trivial, rfl⟩
  | sysinfo arg0 | time arg0 =>
      simp only [handleSyscall, bind_eq_ok, Prod.exists, Except.ok.injEq, Prod.mk.injEq] at h
      obtain ⟨_, _, h1, rfl, rfl, _⟩ := h
      obtain ⟨ht, a0, rfl⟩ := copyToUser_table h1
      exact ⟨.stay, .quiet trivial, ht⟩
  | sbrk increment =>
      simp only [handleSyscall, bind_eq_ok, Prod.exists, Except.ok.injEq, Prod.mk.injEq] at h
      obtain ⟨_, _, h1, rfl, rfl, _⟩ := h
      obtain ⟨ht, a0, rfl⟩ := sysSbrk_table h1
      exact ⟨.stay, .quiet trivial, ht⟩
  | fork =>
      simp only [handleSyscall, bind_eq_ok, Prod.exists, Except.ok.injEq, Prod.mk.injEq] at h
      obtain ⟨_, _, h1, rfl, rfl, _⟩ := h
      rcases sysFork_table h1 with ⟨hf, rfl, rfl⟩ | ⟨c, hf, rfl, ht⟩
      · exact ⟨.stay, .forkNone hf, rfl⟩
      · exact ⟨.fork c, .fork hf, ht⟩
  | exec filename argv argc =>
      simp only [handleSyscall, bind_eq_ok, Prod.exists, Except.ok.injEq, Prod.mk.injEq] at h
      obtain ⟨_, _, h1, rfl, rfl, _⟩ := h
      rcases sysExec_table h1 with ⟨hl, rfl, rfl⟩ | ⟨elf, hl, ht, rfl⟩
      · exact ⟨.stay, .execNone hl, rfl⟩
      · exact ⟨.exec, .exec hl, ht⟩
  | wait status =>
      simp only [handleSyscall, bind_eq_ok, Prod.exists, Except.ok.injEq, Prod.mk.injEq] at h
      obtain ⟨_, _, h1, rfl, rfl, _⟩ := h
      rcases sysWait_table h1 with ⟨z, hz, rfl, ht⟩ | ⟨hz, hs, rfl, rfl⟩
      · exact ⟨.reap z, .wait hz, ht⟩
      · exact ⟨.yield, .waitLeft hz hs, yield_table⟩
  | ipcSend destPid buf size =>
      simp only [handleSyscall, bind_eq_ok, Prod.exists, Except.ok.injEq, Prod.mk.injEq] at h
      obtain ⟨_, _, h1, rfl, rfl, _⟩ := h
      rcases sysIpcSend_table h1 with ⟨rfl, rfl | rfl⟩ | ⟨d, bytes, hd, hlt, hp, hsize, hb, rfl, ht⟩
      · exact ⟨.stay, .sendNone h1 (.inl rfl), rfl⟩
      · exact ⟨.stay, .sendNone h1 (.inr rfl), rfl⟩
      · exact ⟨.send d bytes, .send hd hlt hp hsize hb, ht⟩
  | ipcRecv buf maxSize senderPid =>
      simp only [handleSyscall, bind_eq_ok, Prod.exists, Except.ok.injEq, Prod.mk.injEq] at h
      obtain ⟨_, _, h1, rfl, rfl, _⟩ := h
      rcases sysIpcRecv_table h1 with ⟨rfl, rfl, hp⟩ | ⟨hp, ht, rfl⟩
      · exact ⟨.stay, .recvNone hp, rfl⟩
      · exact ⟨.recv, .recv hp, ht⟩

end Kernel

/-! ## Every trap is an event -/

namespace Machine

variable {s s' : Machine} {t : Trap}

/-- What a trap may do to the process table. -/
inductive Effect (L : Layout) (fs : Initramfs) (s : Machine) (t : Trap) : Table.Event → Prop
  | timer (h : t.cause = .timer) : Effect L fs s t .yield
  | ecall {call : Call} {ret : SysRet} {ev : Table.Event} (h : t.cause = .ecall)
      (hc : callOf t.frame = some call) (he : RiscvOs.Effect fs (s.inKernel L t) call ret ev) :
      Effect L fs s t ev

/-- The process that traps is the current one already. -/
theorem inKernel_table (hc : s.kernel.currentProc.isSome) : (s.inKernel L t).table = s.kernel.table := by
  obtain ⟨c, hc⟩ := Option.isSome_iff_exists.mp hc
  simp [inKernel, Kernel.enter, Kernel.table, atTrap, Kernel.cur, hc]

theorem Effect.enabled (h : s.Effect L fs t ev) (hc : s.kernel.currentProc.isSome) :
    ev.Enabled s.kernel.table := by
  cases h with
  | timer => exact trivial
  | ecall h _ he =>
      rw [← inKernel_table hc]
      exact he.enabled

/-- Every trap is an event of the table. -/
theorem trap_effect (hcur : s.kernel.currentProc.isSome) (h : s.trap L fs t = .ok s') :
    ∃ ev, s.Effect L fs t ev ∧ s'.kernel.table = ev.run s.kernel.table := by
  have hk := inKernel_table (L := L) (t := t) hcur
  unfold trap at h
  cases hc : t.cause with
  | timer =>
      simp only [hc, Except.ok.injEq] at h
      refine ⟨.yield, .timer hc, ?_⟩
      have hy := Kernel.yield_table (k := s.inKernel L t) (L := L)
      rw [hk] at hy
      rw [← h]
      split
      · exact hy
      · exact hy
  | ecall =>
      simp only [hc] at h
      split at h
      · cases h
      · rename_i call hcall
        simp only [bind_eq_ok, Prod.exists] at h
        obtain ⟨ret, k', input, h1, h⟩ := h
        obtain ⟨ev, he, ht⟩ := Kernel.handleSyscall_effect h1
        rw [hk] at ht
        refine ⟨ev, .ecall hc hcall he, ?_⟩
        split at h
        · rw [← Except.ok.inj h]
          exact ht
        · rw [← Except.ok.inj h]
          exact ht

end Machine

/-! ## Boot -/

/-- The table of a system without processes. -/
def Table.empty : Table where
  slots := fun _ => {}
  count := 0
  currentProc := none
  idle := 0

/-- The table with idle, as the current process. -/
def Table.idleOnly : Table where
  slots := fun i => if i = 0 then { state := .runnable } else {}
  count := 1
  currentProc := some 0
  idle := 0

theorem pagingInit_table (h : (Kernel.reset L m).pagingInit L = .ok k) : k.table = Table.empty := by
  simp only [Kernel.pagingInit, bind_eq_ok, Prod.exists, Except.ok.injEq] at h
  obtain ⟨_, _, _, _, _, _, _, rfl⟩ := h
  rfl

theorem makeIdle_table (h : k.table = Table.empty.create 0) : (k.makeIdle 0).table = Table.idleOnly := by
  rw [Kernel.makeIdle, Kernel.table_setProc]
  show ({ k.table.set 0 { k.table.slots 0 with pid := 0 } with currentProc := some 0, idle := 0 } : Table) = _
  rw [h]
  refine Table.ext (funext fun i => ?_) rfl rfl rfl
  fin_cases i <;> rfl

/-- The first `yield` chooses the shell. -/
theorem Table.yield_boot : (Table.idleOnly.create 1).yield = Table.boot := by
  have hp : (Table.idleOnly.create 1).preempted = Table.idleOnly.create 1 := Table.changeState_of_ne (by decide)
  have hn : (Table.idleOnly.create 1).next = 1 := by decide
  have hsw : (Table.idleOnly.create 1).Switches := by
    unfold Switches
    rw [hp, hn]
    decide
  rw [Table.yield, if_pos hsw, hp, hn, Table.changeState, if_pos (by decide)]
  refine Table.ext (funext fun i => ?_) rfl rfl rfl
  fin_cases i <;> rfl

theorem kernelMain_table (h : kernelMain L fs m = .ok k) : k.table = Table.boot := by
  unfold kernelMain at h
  obtain ⟨k₀, h0, h⟩ := bind_eq_ok.mp h
  split at h
  · cases h
  · simp only [bind_eq_ok, Prod.exists] at h
    obtain ⟨idle, k₁, h1, h⟩ := h
    split at h
    · cases h
    · simp only [bind_eq_ok, Prod.exists, Except.ok.injEq] at h
      obtain ⟨s, k₂, h2, rfl⟩ := h
      obtain ⟨hf1, ht1⟩ := Kernel.extractCreate_table h1
      rw [pagingInit_table h0] at hf1 ht1
      obtain rfl : 0 = idle := Option.some.inj ((show Table.empty.freeSlot = some 0 by rfl).symm.trans hf1)
      obtain ⟨hf2, ht2⟩ := Kernel.extractCreate_table h2
      rw [makeIdle_table ht1] at hf2 ht2
      obtain rfl : 1 = s := Option.some.inj ((show Table.idleOnly.freeSlot = some 1 by rfl).symm.trans hf2)
      have hn : (k₂.setName 1 (shellName.take 5)).table = Table.idleOnly.create 1 :=
        Kernel.setName_table.trans ht2
      rw [Kernel.yield_table, hn, Table.yield_boot]

end RiscvOs
