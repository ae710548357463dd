import RiscvOs.Theorems.Schedule

/-!
# The status register over whole runs

The bits SUM and SIE of `sstatus`, which the handlers of the system calls switch in pairs. The bits stay as
they are meant to be exactly where no `sys_read` is refused or leaves the kernel, and no zombie is reaped.
-/

namespace RiscvOs

open Outcome Kernel Lts

variable {L : Layout} {fs : Initramfs} {s s' s₀ : Machine} {t : Trap} {l : List Trap} {k k' : Kernel} {ret : SysRet}
  {input input' now : List UInt8} {w : BitVec 64} {op : CsrOp} {ops ops' : List CsrOp} {call : Call}

/-- The supervisor may access the pages of the user. -/
def sumSet (w : BitVec 64) : Bool := w.getLsbD 18

/-- An interrupt in supervisor mode is taken. -/
def sieSet (w : BitVec 64) : Bool := w.getLsbD 1

/-! ## One write -/

theorem sumSet_run (op : CsrOp) (w : BitVec 64) :
    sumSet (op.run w) = (op == .enableSum || op != .disableSum && sumSet w) := by
  cases op <;> simp [CsrOp.run, sumSet, sstatusSum, sstatusSie] <;> rfl

theorem sieSet_run (op : CsrOp) (w : BitVec 64) :
    sieSet (op.run w) = (op == .enableInterrupts || op != .disableInterrupts && sieSet w) := by
  cases op <;> simp [CsrOp.run, sieSet, sstatusSum, sstatusSie] <;> rfl

/-- A trap from user mode masks the interrupts, and keeps SUM. -/
@[simp] theorem sieSet_trap (w : BitVec 64) : sieSet (sstatusTrap w) = false := by
  simp [sstatusTrap, sieSet, sstatusSie, sstatusSpie, sstatusSpp]

@[simp] theorem sumSet_trap (w : BitVec 64) : sumSet (sstatusTrap w) = sumSet w := by
  unfold sstatusTrap sumSet
  split <;> simp [sstatusSie, sstatusSpie, sstatusSpp]

@[simp] theorem sumSet_sret (w : BitVec 64) : sumSet (sstatusSret w) = sumSet w := by
  unfold sstatusSret sumSet
  split <;> simp [sstatusSie, sstatusSpie, sstatusSpp]

@[simp] theorem sumSet_userReturn (w : BitVec 64) : sumSet (userReturnSstatus w) = sumSet w := by
  simp [userReturnSstatus, sumSet, sstatusSpie, sstatusSpp]

/-! ## A sequence of writes -/

/-- Interrupts stay masked at every point exactly where no write takes the mask away. -/
theorem sieSet_points (ops : List CsrOp) (h : sieSet w = false) :
    (∀ x ∈ ops.scanl CsrOp.run w, sieSet x = false) ↔ .enableInterrupts ∉ ops := by
  induction ops generalizing w with
  | nil => simp [h]
  | cons op ops ih =>
      rw [List.scanl_cons, List.forall_mem_cons, List.mem_cons, not_or]
      have hop := sieSet_run op w
      rw [h, Bool.and_false, Bool.or_false] at hop
      by_cases he : op = .enableInterrupts
      · subst he
        refine iff_of_false (fun hall => ?_) fun hall => hall.1 rfl
        have hmem : CsrOp.run w .enableInterrupts ∈ ops.scanl CsrOp.run (CsrOp.run w .enableInterrupts) := by
          cases ops <;> simp [List.scanl_cons]
        cases hop.symm.trans (hall.2 _ hmem)
      · rw [ih (hop.trans (beq_eq_false_iff_ne.mpr he))]
        exact ⟨fun hall => ⟨Ne.symm he, hall.2⟩, fun hall => ⟨h, hall.2⟩⟩

/-- The writes leave SUM clear where it was clear before. -/
def ClearsSum (ops : List CsrOp) : Prop := ∀ w, sumSet w = false → sumSet (ops.foldl CsrOp.run w) = false

theorem ClearsSum.nil : ClearsSum [] := fun _ h => h

theorem ClearsSum.append (h : ClearsSum ops) (h' : ClearsSum ops') : ClearsSum (ops ++ ops') := fun w hw => by
  rw [List.foldl_append]
  exact h' _ (h w hw)

/-- A last `disable_sum` closes all that was opened before it. -/
theorem ClearsSum.disable (ops : List CsrOp) : ClearsSum (ops ++ [.disableSum]) := fun w _ => by
  rw [List.foldl_append]
  exact sumSet_run .disableSum _

theorem ClearsSum.argumentsCsr (argc : Int) : ClearsSum (argumentsCsr argc) := by
  unfold Kernel.argumentsCsr
  split
  · induction argc.toNat + 1 with
    | zero => exact .nil
    | succ n ih =>
        rw [List.replicate_succ, List.flatten_cons]
        exact (ClearsSum.disable [.enableSum]).append ih
  · exact .nil

/-! ## System calls -/

/-- The loop of `sys_read` leaves the kernel with its first character. -/
theorem readLoop_switched_iff {buf j n : Nat} (hn : n ≠ 0) (h : k.readLoop L buf j n input = .ok (ret, k', input')) :
    ret = .switched ↔ input.head? ≠ some newline ∧ k.table.Switches := by
  obtain ⟨n, rfl⟩ := Nat.exists_eq_succ_of_ne_zero hn
  rcases readLoop_table h with ⟨hret, hs, -⟩ | ⟨m, hret, -⟩
  · refine iff_of_true hret ⟨fun hnew => ?_, hs⟩
    cases input with
    | nil => cases hnew
    | cons a input =>
        simp only [readLoop, bind_eq_ok] at h
        obtain ⟨k₁, -, h⟩ := h
        rw [if_pos (Option.some.inj hnew), hret] at h
        cases h
  · refine iff_of_false (fun he => by rw [hret] at he; cases he) ?_
    rintro ⟨hnew, hs⟩
    cases input with
    | nil => cases h
    | cons a input =>
        simp only [readLoop, bind_eq_ok] at h
        obtain ⟨k₁, h1, h⟩ := h
        rw [if_neg fun he => hnew (congrArg some he)] at h
        have hy := yield_switched (k := k₁) (L := L)
        rw [storeU8_table h1, decide_eq_true hs] at hy
        split at h
        · rw [hret] at h
          cases h
        · rename_i k₂ hk
          rw [hk] at hy
          cases hy

theorem ClearsSum.ite {p : Prop} [Decidable p] (h : ClearsSum ops) : ClearsSum (if p then [] else ops) := by
  split
  · exact .nil
  · exact h

theorem ClearsSum.execCsr {filename argv : Nat} {argc : Int}
    (h : k.sysExec L fs filename argv argc = .ok (ret, k')) : ClearsSum (k.execCsr L fs filename argv argc) := by
  have hopen : ClearsSum [.enableSum, .enableSum, .disableSum] := .disable [.enableSum, .enableSum]
  simp only [Kernel.sysExec, bind_eq_ok] at h
  obtain ⟨buf, -, found, hfound, -⟩ := h
  unfold Kernel.execCsr
  rw [hfound]
  cases found with
  | none => exact hopen
  | some elf =>
      refine (hopen.append (.argumentsCsr argc)).append ?_
      split
      · exact .disable []
      · exact .nil

theorem ClearsSum.waitCsr (k : Kernel) (status : Nat) : ClearsSum (k.waitCsr status) := by
  unfold Kernel.waitCsr
  split
  · exact .nil
  · refine (ClearsSum.ite (.disable [.enableSum])).append fun w hw => ?_
    rw [List.foldl_cons, List.foldl_cons, List.foldl_nil, sumSet_run, sumSet_run, hw]
    rfl

theorem ClearsSum.ipcSendCsr (k : Kernel) (destPid : Int) (size : Nat) : ClearsSum (k.ipcSendCsr destPid size) := by
  unfold Kernel.ipcSendCsr
  split
  · exact .nil
  · split
    · exact .nil
    · exact .ite (.disable [.enableSum])

/-- The writes of a call leave SUM clear, but for a `sys_read` that is refused or leaves the kernel. -/
theorem csrOps_sum (hw : sumSet w = false) (h : k.handleSyscall L fs input now call = .ok (ret, k', input')) :
    sumSet ((k.csrOps L fs input call).foldl CsrOp.run w) = false ↔
      ¬∃ fd buf len, call = .read fd buf len ∧
        (readRefused fd buf len = true ∨ input.head? ≠ some newline ∧ k.table.Switches) := by
  have hset : sumSet ([CsrOp.enableSum].foldl CsrOp.run w) = true := sumSet_run .enableSum w
  have hpair : ClearsSum [.enableSum, .disableSum] := .disable [.enableSum]
  cases call with
  | read fd buf len =>
      have hstay : sumSet ((k.readCsr L fd buf len input).foldl CsrOp.run w) = false ↔
          ¬(readRefused fd buf len = true ∨ input.head? ≠ some newline ∧ k.table.Switches) := by
        unfold readCsr
        cases hr : readRefused fd buf len with
        | true => exact iff_of_false (by simpa using hset) (by simp)
        | false =>
            simp only [Kernel.handleSyscall, Kernel.sysRead, hr] at h
            have hlen : len ≠ 0 := by
              rintro rfl
              simp [readRefused] at hr
            have hiff := readLoop_switched_iff hlen h
            rw [show k.readLoop L buf 0 len input = .ok (ret, k', input') from h]
            cases ret with
            | switched => exact iff_of_false (by simpa using hset) (by simpa using hiff)
            | value a0 => exact iff_of_true (hpair w hw) (by simpa using hiff)
      rw [show k.csrOps L fs input (.read fd buf len) = k.readCsr L fd buf len input from rfl, hstay]
      refine not_congr ⟨fun hx => ⟨fd, buf, len, rfl, hx⟩, ?_⟩
      rintro ⟨_, _, _, he, hx⟩
      cases he
      exact hx
  | exec filename argv argc =>
      simp only [Kernel.handleSyscall, bind_eq_ok, Prod.exists] at h
      obtain ⟨ret, k', h, -⟩ := h
      exact iff_of_true (ClearsSum.execCsr h w hw) (by rintro ⟨_, _, _, he, -⟩; cases he)
  | wait status => exact iff_of_true (ClearsSum.waitCsr k status w hw) (by rintro ⟨_, _, _, he, -⟩; cases he)
  | ipcSend destPid buf size =>
      exact iff_of_true (ClearsSum.ipcSendCsr k destPid size w hw) (by rintro ⟨_, _, _, he, -⟩; cases he)
  | write | ipcRecv | log => exact iff_of_true (ClearsSum.ite hpair w hw) (by rintro ⟨_, _, _, he, -⟩; cases he)
  | tarfsExists => exact iff_of_true (hpair w hw) (by rintro ⟨_, _, _, he, -⟩; cases he)
  | _ => exact iff_of_true hw (by rintro ⟨_, _, _, he, -⟩; cases he)

theorem not_mem_argumentsCsr (argc : Int) : .enableInterrupts ∉ argumentsCsr argc := by
  unfold argumentsCsr
  split
  · simp only [List.mem_flatten, not_exists, not_and]
    intro ops hops
    rw [List.eq_of_mem_replicate hops]
    decide
  · exact List.not_mem_nil

theorem not_mem_execCsr {filename argv : Nat} {argc : Int} :
    .enableInterrupts ∉ k.execCsr L fs filename argv argc := by
  unfold execCsr
  split
  · decide
  · decide
  · simp only [List.mem_append, not_or]
    refine ⟨⟨by decide, not_mem_argumentsCsr argc⟩, ?_⟩
    split <;> decide

theorem not_mem_readCsr {fd buf len : Nat} : .enableInterrupts ∉ k.readCsr L fd buf len input := by
  unfold readCsr
  split
  · decide
  · split <;> decide

theorem not_mem_pair {p : Prop} [Decidable p] :
    .enableInterrupts ∉ if p then [] else [CsrOp.enableSum, CsrOp.disableSum] := by
  split <;> decide

theorem not_mem_ipcSendCsr {destPid : Int} {size : Nat} : .enableInterrupts ∉ k.ipcSendCsr destPid size := by
  unfold ipcSendCsr
  split
  · decide
  · split
    · decide
    · exact not_mem_pair

theorem mem_waitCsr {status : Nat} : .enableInterrupts ∈ k.waitCsr status ↔ k.findZombie ≠ none := by
  unfold waitCsr
  cases k.findZombie with
  | none => simp
  | some z => simp

/-- Of the calls, only a `sys_wait` that reaps a zombie lets interrupts in. -/
theorem csrOps_sie : .enableInterrupts ∈ k.csrOps L fs input call ↔
    ∃ status, call = .wait status ∧ k.findZombie ≠ none := by
  cases call with
  | wait status => exact mem_waitCsr.trans (by simp)
  | read => exact iff_of_false not_mem_readCsr (by simp)
  | exec => exact iff_of_false not_mem_execCsr (by simp)
  | ipcSend => exact iff_of_false not_mem_ipcSendCsr (by simp)
  | write | ipcRecv | log => exact iff_of_false not_mem_pair (by simp)
  | tarfsExists => exact iff_of_false (by simp [csrOps]) (by simp)
  | _ => exact iff_of_false List.not_mem_nil (by simp)

/-! ## Runs -/

namespace Machine

/-- The writes to `sstatus` while the kernel serves a trap. -/
def csr (L : Layout) (fs : Initramfs) (s : Machine) (t : Trap) : List CsrOp :=
  (t.request.map ((s.inKernel L t).csrOps L fs s.input)).getD []

/-- Interrupts are masked at every point of the kernel, and SUM is clear when it is left. -/
structure Masked (L : Layout) (fs : Initramfs) (s : Machine) (t : Trap) (s' : Machine) : Prop where
  sie : ∀ x ∈ (s.csr L fs t).scanl CsrOp.run (sstatusTrap s.sstatus), sieSet x = false
  sum : sumSet s'.sstatus = false

/-- The trap is a `sys_read` that is refused, or that leaves the kernel with its first character, or a `sys_wait` that
finds a zombie. -/
def Unmasks (s : Machine) (t : Trap) : Prop :=
  (∃ fd buf len, t.request = some (.read fd buf len) ∧
    (readRefused fd buf len = true ∨ s.input.head? ≠ some newline ∧ s.kernel.table.Switches)) ∨
  ∃ status, t.request = some (.wait status) ∧ s.kernel.findZombie ≠ none

theorem Step.masked_iff (hc : s.kernel.currentProc.isSome) (hw : sumSet s.sstatus = false) (h : s.Step L fs t s') :
    s.Masked L fs t s' ↔ ¬s.Unmasks t := by
  have htable := inKernel_table (L := L) (t := t) hc
  have hzombie : (s.inKernel L t).findZombie = s.kernel.findZombie := congrArg Table.findZombie htable
  have hsum := sumSet_trap s.sstatus
  rw [hw] at hsum
  have htrap := h.2
  unfold trap at htrap
  cases hcause : t.cause with
  | timer =>
      have hreq : t.request = none := by rw [Trap.request, hcause]
      simp only [hcause, Except.ok.injEq] at htrap
      refine iff_of_true ⟨?_, ?_⟩ (by simp [Unmasks, hreq])
      · simp [csr, hreq]
      · rw [← htrap]
        split
        · simpa [resume] using hsum
        · simpa [goOn] using hsum
  | ecall =>
      simp only [hcause] at htrap
      split at htrap
      · cases htrap
      · rename_i call hcall
        have hreq : t.request = some call := by rw [Trap.request, hcause, hcall]
        simp only [bind_eq_ok, Prod.exists] at htrap
        obtain ⟨ret, k', input, h2, htrap⟩ := htrap
        have hcsr : s.csr L fs t = (s.inKernel L t).csrOps L fs s.input call := by rw [csr, hreq]; rfl
        have hleave : sumSet s'.sstatus =
            sumSet (((s.inKernel L t).csrOps L fs s.input call).foldl CsrOp.run (sstatusTrap s.sstatus)) := by
          cases ret with
          | switched =>
              rw [← Except.ok.inj htrap]
              simp [resume]
          | value a0 =>
              rw [← Except.ok.inj htrap]
              simp [goOn]
        have hsie := sieSet_points (s.csr L fs t) (sieSet_trap s.sstatus)
        have hiff := csrOps_sum hsum h2
        rw [← hleave, htable] at hiff
        constructor
        · rintro ⟨h1, h3⟩ (⟨fd, buf, len, he, hx⟩ | ⟨status, he, hx⟩)
          · exact hiff.mp h3 ⟨fd, buf, len, Option.some.inj (hreq.symm.trans he), hx⟩
          · refine hsie.mp h1 ?_
            rw [hcsr, csrOps_sie, hzombie]
            exact ⟨status, Option.some.inj (hreq.symm.trans he), hx⟩
        · intro hn
          refine ⟨hsie.mpr fun hmem => hn (.inr ?_), hiff.mpr fun ⟨fd, buf, len, he, hx⟩ => hn (.inl ?_)⟩
          · rw [hcsr, csrOps_sie, hzombie] at hmem
            obtain ⟨status, rfl, hx⟩ := hmem
            exact ⟨status, hreq, hx⟩
          · subst he
            exact ⟨fd, buf, len, hreq, hx⟩

theorem Start.sum_clear (h : s₀.Start L fs) : sumSet s₀.sstatus = false := by
  rw [h.sstatus]
  decide

end Machine

end RiscvOs
