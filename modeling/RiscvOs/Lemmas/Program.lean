import RiscvOs.Lemmas.Machine

/-!
# Programs that make calls

The first page of a process's program, as a memory of its own: the process and the kernel read and write it,
and the steps of others leave it alone. With an `ecall` at its start, the process makes any system call.
-/

namespace RiscvOs

open ByteMem Outcome Kernel

variable {L : Layout} {k k' : Kernel} {F F' : List Nat} {i c : Fin procsMax} {f : Frame} {s s' : Machine}
  {t : Trap} {pg x n : Nat} {bytes : Mem} {l : List UInt8} {m : Mem} {fs : Initramfs}

/-- The first page of the program of process `i`. -/
structure HasCode (k : Kernel) (i : Fin procsMax) (bytes : Mem) : Prop where
  code : CodeLeaf (leafAt k.phys.mem (k.procs i).pageTable (vpn userBase))
  byte : ∀ pg x, userFrame (leafAt k.phys.mem (k.procs i).pageTable (vpn userBase)) = some pg → x < 4096 →
    k.phys.mem (pg + x) = bytes x

theorem vpn_userBase (hx : x < 4096) : vpn (userBase + x) = vpn userBase := by
  rw [vpn_eq_iff]
  unfold userBase
  omega

namespace HasCode

/-- A step that writes to no page of the process. -/
theorem congr (h : HasCode k i bytes) (hp : ProcOk L k.phys F i (k.procs i))
    (hroot : (k.procs i).pageTable ≠ 0) (hpt : (k'.procs i).pageTable = (k.procs i).pageTable)
    (hm : ∀ a, InSpace k.phys.mem (k.procs i).pageTable (pageOf a) → k'.phys.mem a = k.phys.mem a) :
    HasCode k' i bytes := by
  have hs := hp.spaceOk hroot
  have hleaf : leafAt k'.phys.mem (k.procs i).pageTable = leafAt k.phys.mem (k.procs i).pageTable :=
    leafAt_congr (fun a ha => hm a ha.inSpace) fun _ => hs.tables.aligned
  refine ⟨by rw [hpt, hleaf]; exact h.code, fun pg x hpg hx => ?_⟩
  rw [hpt, hleaf] at hpg
  have hpage := (hs.page pg (inSpace_of_frame hpg)).1
  rw [hpage.congr_mem (fun a ha => hm a (by rw [ha]; exact inSpace_of_frame hpg)) hx]
  exact h.byte pg x hpg hx

section Running

variable (h : HasCode k c bytes) (hr : Running L k F c)
include h hr

/-- Where the page lies. -/
theorem page : ∃ pg, userFrame (leafAt k.phys.mem (k.procs c).pageTable (vpn userBase)) = some pg ∧
    IsPage L pg ∧ ∀ x < 4096, ∀ mask, mask = pteR ∨ mask = pteW ∨ mask = pteX ∨ mask = pteU →
      Phys.translate k.phys.mem k.satp (userBase + x) mask = some (pg + x) := by
  obtain ⟨pg, hl⟩ := h.code.user
  refine ⟨pg, hl.frame, (hr.spaceOk.page pg (inSpace_of_frame hl.frame)).1, fun x hx mask hmask => ?_⟩
  have hmod : (userBase + x) % 4096 = x := by
    unfold userBase
    omega
  have hv := vpn_userBase hx
  rw [hr.active, translate_of_code (by rw [hv]; exact h.code) (by unfold userBase; omega)
    (by rw [hv]; exact hl.frame) hmask, hmod]

theorem loadU8 (hx : x < 4096) : k.loadU8 (userBase + x) = .ok (bytes x) := by
  obtain ⟨pg, hf, -, ht⟩ := h.page hr
  have hmod : (userBase + x) % 2 ^ 64 = userBase + x := Nat.mod_eq_of_lt (by unfold userBase; omega)
  unfold Kernel.loadU8
  rw [hmod, ht x hx pteR (.inl rfl)]
  exact congrArg _ (h.byte pg x hf hx)

theorem loadBytes (hn : x + n ≤ 4096) :
    k.loadBytes (userBase + x) n = .ok ((List.range' x n).map bytes) := by
  induction n generalizing x with
  | zero => rfl
  | succ n ih =>
      rw [Kernel.loadBytes, h.loadU8 hr (by omega), ok_bind, Nat.add_assoc, ih (by omega), ok_bind,
        List.range'_succ, List.map_cons]

/-- A store of the kernel to the page. -/
theorem storeU8 (hx : x < 4096) (b : UInt8) :
    ∃ k', k.storeU8 L (userBase + x) b = .ok k' ∧ UserWrites k c k' ∧
      HasCode k' c (Function.update bytes x b) := by
  obtain ⟨pg, hf, hpg, ht⟩ := h.page hr
  have hmod : (userBase + x) % 2 ^ 64 = userBase + x := Nat.mod_eq_of_lt (by unfold userBase; omega)
  have hok : k.storeU8 L (userBase + x) b =
      .ok { k with phys := { k.phys with mem := Function.update k.phys.mem (pg + x) b } } := by
    unfold Kernel.storeU8
    rw [hmod, ht x hx pteW (.inr (.inl rfl))]
    exact if_neg (by have := hpg.ge; omega)
  have hw := storeU8_spec hr.toInv hr.live hr.pageTable hr.active (by unfold userBase kernelBase; omega) hok
  refine ⟨_, hok, hw, ?_, fun pg' y hpg' hy => ?_⟩
  · rw [hw.leafAt hr.toInv hr.live hr.pageTable hr.live hr.pageTable]
    exact h.code
  · rw [hw.leafAt hr.toInv hr.live hr.pageTable hr.live hr.pageTable] at hpg'
    obtain rfl : pg = pg' := Option.some.inj (hf.symm.trans hpg')
    show Function.update k.phys.mem (pg + x) b (pg + y) = Function.update bytes x b y
    by_cases hxy : y = x
    · rw [hxy, Function.update_self, Function.update_self]
    · rw [Function.update_of_ne (by omega), Function.update_of_ne hxy]
      exact h.byte pg y hf hy

omit h hr in
theorem storeBytes {L : Layout} {F : List Nat} (hr : Running L k F c) (h : HasCode k c bytes)
    (hn : x + l.length ≤ 4096) :
    ∃ k', k.storeBytes L (userBase + x) l = .ok k' ∧ UserWrites k c k' ∧
      HasCode k' c (write bytes x l.length fun j => l.getD j 0) := by
  induction l generalizing k bytes x with
  | nil =>
      refine ⟨k, rfl, .refl k c, h.code, fun pg y hpg hy => ?_⟩
      rw [h.byte pg y hpg hy, write_outside (by simp)]
  | cons b l ih =>
      rw [List.length_cons] at hn
      obtain ⟨k₁, h1, hw1, hc1⟩ := h.storeU8 (x := x) hr (by omega) b
      obtain ⟨k₂, h2, hw2, hc2⟩ := ih (x := x + 1) (hr.userWrites hw1) hc1 (by omega)
      refine ⟨k₂, ?_, hw1.trans hw2 hr.toInv hr.live hr.pageTable, hc2.code, fun pg y hpg hy => ?_⟩
      · rw [Kernel.storeBytes, h1, ok_bind, Nat.add_assoc, h2]
      · rw [hc2.byte pg y hpg hy]
        by_cases hyx : y = x
        · subst hyx
          rw [write_outside (by omega), Function.update_self, write_inside (by omega) (by simp), Nat.sub_self]
          rfl
        · by_cases hin : x + 1 ≤ y ∧ y < x + 1 + l.length
          · rw [write_inside hin.1 hin.2, write_inside (by omega) (by rw [List.length_cons]; omega)]
            have hj : y - x = y - (x + 1) + 1 := by omega
            rw [hj]
            rfl
          · rw [write_outside hin, Function.update_of_ne hyx, write_outside (by rw [List.length_cons]; omega)]

/-- The process stands at an `ecall` where the page has its four bytes. -/
theorem atEcall (hx : x + 4 ≤ 4096) :
    Machine.atEcall k (BitVec.ofNat 64 (userBase + x)) = (List.range 4).all fun j => bytes (x + j) == byteOf 0x73 j := by
  obtain ⟨pg, hf, -, ht⟩ := h.page hr
  have hpc : (BitVec.ofNat 64 (userBase + x)).toNat = userBase + x := by
    rw [BitVec.toNat_ofNat, Nat.mod_eq_of_lt (by unfold userBase; omega)]
  unfold Machine.atEcall
  rw [hpc, Bool.eq_iff_iff, List.all_eq_true, List.all_eq_true]
  refine forall₂_congr fun j hj => iff_of_eq ?_
  rw [List.mem_range] at hj
  have hmod : (userBase + x + j) % 2 ^ 64 = userBase + (x + j) := by
    unfold userBase
    omega
  rw [hmod, Machine.userAccess, ht _ (by omega) pteU (by simp), ht _ (by omega) pteX (by simp)]
  simp only [Option.isSome_some, if_true]
  rw [h.byte pg _ hf (by omega)]

end Running

/-- Stores of another process. -/
theorem userWrites (h : HasCode k i bytes) (hk : k.Inv L F) (hl : k.Live i) (hpt : (k.procs i).pageTable ≠ 0)
    (hlc : k.Live c) (hptc : (k.procs c).pageTable ≠ 0) (hic : i ≠ c) (hw : UserWrites k c k') :
    HasCode k' i bytes := by
  refine h.congr (hk.proc i hl) hpt (by rw [hw.procs]) fun a ha => hw.mem a fun hu => hic ?_
  obtain ⟨q, hq⟩ := holds_space (L := L) hl hpt ha
  obtain ⟨q', hq'⟩ := holds_space (L := L) hlc hptc hu.inSpace
  exact hk.apart i c _ _ _ hq hq'

/-- The entry of some process into the kernel. -/
theorem enter (h : HasCode k i bytes) (hk : k.Inv L F) (hl : k.Live i) (hpt : (k.procs i).pageTable ≠ 0)
    (hlc : k.Live c) : HasCode (k.enter L c f) i bytes :=
  h.congr (hk.proc i hl) hpt rfl fun _ ha =>
    enter_mem (hk.proc c hlc) hlc fun htf => (hk.tfPages htf).2 i hl hpt ha

/-- A store below free RAM. -/
theorem lowWrite (h : HasCode k i bytes) (hk : k.Inv L F) (hl : k.Live i) (hpt : (k.procs i).pageTable ≠ 0)
    (hm : ∀ a, L.freeRam ≤ a → m a = k.phys.mem a) :
    HasCode { k with phys := { k.phys with mem := m } } i bytes :=
  h.congr (hk.proc i hl) hpt rfl fun a ha => hm a (by
    have := (((hk.proc i hl).spaceOk hpt).page _ ha).1.ge
    have := Nat.div_mul_le_self a 4096
    unfold pageOf at *
    omega)

/-- A step that leaves memory alone and the page table of the process where it was. -/
theorem relabel (h : HasCode k i bytes) (hphys : k'.phys = k.phys)
    (hpt : (k'.procs i).pageTable = (k.procs i).pageTable) : HasCode k' i bytes := by
  refine ⟨by rw [hphys, hpt]; exact h.code, fun pg x hpg hx => ?_⟩
  rw [hphys] at hpg ⊢
  rw [hpt] at hpg
  exact h.byte pg x hpg hx

theorem yield (h : HasCode k i bytes) (L : Layout) : HasCode (k.yield L).1 i bytes :=
  h.relabel (yield_phys L k) (yield_same L k i).pageTable

theorem of_blank (hcode : CodeLeaf (leafAt k.phys.mem (k.procs i).pageTable (vpn userBase)))
    (hb : BlankPage k.phys.mem (k.procs i).pageTable) : HasCode k i fun _ => 0 := ⟨hcode, hb⟩

end HasCode

namespace Kernel

/-- The process may give its page any contents. -/
theorem exists_code
    (hcode : CodeLeaf (leafAt k.phys.mem (k.procs c).pageTable (vpn userBase))) :
    ∃ bytes, HasCode k c bytes := by
  obtain ⟨pg, hl⟩ := hcode.user
  refine ⟨fun x => k.phys.mem (pg + x), hcode, fun pg' x hpg _ => ?_⟩
  obtain rfl : pg = pg' := Option.some.inj (hl.frame.symm.trans hpg)
  rfl

end Kernel

/-! ## Traps -/

namespace Machine

variable {now : List UInt8} {cause : Cause}

/-- The process stores a program to its page. -/
theorem exists_program (h : Running L s.kernel F c) (hc : HasCode s.kernel c bytes) (new : Mem) :
    ∃ m : Mem, (∀ a, m a ≠ s.kernel.phys.mem a → L.freeRam ≤ a ∧ ∃ va, userAccess s.kernel va pteW = some a) ∧
      HasCode { s.kernel with phys := { s.kernel.phys with mem := m } } c new := by
  obtain ⟨pg, hf, hpg, ht⟩ := hc.page h
  have hnt := h.spaceOk.frame_not_table hf
  have hmem : ∀ a, write s.kernel.phys.mem pg 4096 new a ≠ s.kernel.phys.mem a → pg ≤ a ∧ a < pg + 4096 :=
    fun a ha => Classical.byContradiction fun hout => ha (write_outside hout)
  have hleaf : leafAt (write s.kernel.phys.mem pg 4096 new) (s.kernel.procs c).pageTable =
      leafAt s.kernel.phys.mem (s.kernel.procs c).pageTable :=
    leafAt_congr (fun a ha => Classical.byContradiction fun hne => hnt (by
      rw [(pageOf_eq_iff hpg.aligned).mpr (hmem a hne)] at ha
      exact ha)) fun _ => h.spaceOk.tables.aligned
  refine ⟨write s.kernel.phys.mem pg 4096 new, fun a ha => ?_, by rw [hleaf]; exact hc.code,
    fun pg' x hpg' hx => ?_⟩
  · obtain ⟨h1, h2⟩ := hmem a ha
    refine ⟨Nat.le_trans hpg.ge h1, userBase + (a - pg), ?_⟩
    rw [userAccess, ht _ (by omega) pteU (by simp), ht _ (by omega) pteW (by simp)]
    simp only [Option.isSome_some, if_true]
    congr 1
    omega
  · rw [hleaf] at hpg'
    obtain rfl : pg = pg' := Option.some.inj (hf.symm.trans hpg')
    show write s.kernel.phys.mem pg 4096 new (pg + x) = new x
    rw [write_inside (by omega) (by omega), Nat.add_sub_cancel_left]

/-- A page that begins with an `ecall`. -/
def EcallFirst (bytes : Mem) : Prop := ∀ j < 4, bytes j = byteOf 0x73 j

theorem atEcall_first (h : Running L k F c) (hc : HasCode k c bytes) (he : EcallFirst bytes) :
    atEcall k (BitVec.ofNat 64 userBase) := by
  have ha := hc.atEcall (x := 0) h (by omega)
  rw [Nat.add_zero] at ha
  rw [ha, List.all_eq_true]
  intro j hj
  rw [Nat.zero_add, he j (List.mem_range.mp hj), beq_self_eq_true]

/-- A process that does not stand at an `ecall` can bring it about that the next trap is a system call with
any registers, and with any other contents of its first page. -/
theorem exists_call (h : Running L s.kernel F c) (hc : HasCode s.kernel c bytes)
    (hno : atEcall s.kernel (s.user tfPc) = false) {new : Mem} (he : EcallFirst new)
    (hpc : f tfPc = BitVec.ofNat 64 userBase) (now : List UInt8) :
    ∃ t : Trap, s.Runs L t ∧ t.frame = f ∧ t.cause = .ecall ∧ t.now = now ∧
      HasCode (s.inKernel L t) c new := by
  obtain ⟨m, hstores, hm⟩ := exists_program h hc new
  have hr : Running L { s.kernel with phys := { s.kernel.phys with mem := m } } F c :=
    h.userWrites (stores_userWrites h hstores)
  refine ⟨⟨m, f, .ecall, now⟩, ⟨hstores, fun h => absurd h (by rw [hno]; decide), fun _ => ?_⟩, rfl, rfl, rfl, ?_⟩
  · show atEcall { s.kernel with phys := { s.kernel.phys with mem := m } } (f tfPc) = true
    rw [hpc]
    exact atEcall_first hr hm he
  · unfold inKernel
    rw [h.cur]
    exact hm.enter hr.toInv hr.live hr.pageTable hr.live

/-- A process that stands at an `ecall` makes a system call. -/
theorem runs_ecall (h : atEcall s.kernel (s.user tfPc)) (now : List UInt8) :
    s.Runs L ⟨s.kernel.phys.mem, s.user, .ecall, now⟩ :=
  ⟨fun _ hne => absurd rfl hne, fun _ => ⟨rfl, rfl⟩, fun _ => h⟩

/-- The process in slot `c` runs and is free to do what it wants next. -/
structure Free (L : Layout) (s : Machine) (F : List Nat) (c : Fin procsMax) : Prop where
  running : Running L s.kernel F c
  code : ∃ bytes, HasCode s.kernel c bytes
  noEcall : atEcall s.kernel (s.user tfPc) = false

/-- The shell after boot. -/
theorem exists_shell (L : Layout) (input : List UInt8) : ∃ s F, s.Start L tinyFs ∧ s.input = input ∧
    Free L s F 1 ∧ Booted L s.kernel F ∧ 14799 ≤ s.kernel.phys.room L := by
  obtain ⟨k, F, hk, hb, hroom, hblank⟩ := exists_booted L fun _ => 0
  have hcode : HasCode k 1 fun _ => 0 := .of_blank (hb.code 1 hb.live_shell) hblank
  have hno := hcode.atEcall (x := 0) hb.running (by omega)
  exact ⟨⟨k, input, sstatusSret sstatusSpie, fun _ => BitVec.ofNat 64 userBase⟩, F, ⟨⟨_, hk⟩, rfl, rfl⟩, rfl,
    ⟨hb.running, ⟨_, hcode⟩, hno⟩, hb, hroom⟩

/-- A page with an `ecall`, and `data` behind it. -/
def program (data : List UInt8) : Mem :=
  fun x => if x < 4 then byteOf 0x73 x else if x < 64 then 0 else data.getD (x - 64) 0

/-- The address of `data`. -/
def dataVa : Nat := userBase + 64

/-- The registers for a system call by that `ecall`. -/
def callFrame (a7 a0 a1 a2 : Nat) : Frame := fun j =>
  if j = 17 then BitVec.ofNat 64 a7
  else if j = 10 then BitVec.ofNat 64 a0
  else if j = 11 then BitVec.ofNat 64 a1
  else if j = 12 then BitVec.ofNat 64 a2
  else if j = tfPc then BitVec.ofNat 64 userBase
  else 0

theorem ecallFirst_program (data : List UInt8) : EcallFirst (program data) := fun _ hj => if_pos hj

@[simp] theorem callFrame_pc (a7 a0 a1 a2 : Nat) : callFrame a7 a0 a1 a2 tfPc = BitVec.ofNat 64 userBase := rfl

/-- What the kernel finds after a system call of the program. -/
structure Called (L : Layout) (s : Machine) (F : List Nat) (c : Fin procsMax) (f : Frame) (data : List UInt8)
    (t : Trap) : Prop where
  runs : s.Runs L t
  frame : t.frame = f
  cause : t.cause = .ecall
  running : Running L (s.inKernel L t) F c
  code : HasCode (s.inKernel L t) c (program data)

theorem Free.call (h : Free L s F c) (a7 a0 a1 a2 : Nat) (data now : List UInt8) :
    ∃ t : Trap, Called L s F c (callFrame a7 a0 a1 a2) data t ∧ t.now = now := by
  obtain ⟨bytes, hc⟩ := h.code
  obtain ⟨t, hr, hf, hcause, hnow, hcode⟩ := exists_call (f := callFrame a7 a0 a1 a2) h.running hc h.noEcall
    (ecallFirst_program data) rfl now
  exact ⟨t, ⟨hr, hf, hcause, hr.inKernel h.running, hcode⟩, hnow⟩

/-- The instruction behind the `ecall` of the program is none. -/
theorem noEcall_next {data : List UInt8} (hr : Running L k F c) (hc : HasCode k c (program data)) :
    atEcall k (BitVec.ofNat 64 userBase + 4) = false := by
  have h := hc.atEcall (x := 4) hr (by omega)
  rw [show BitVec.ofNat 64 userBase + 4 = BitVec.ofNat 64 (userBase + 4) from rfl, h, Bool.eq_false_iff]
  intro hall
  have h0 := List.all_eq_true.mp hall 0 (by decide)
  revert h0
  simp [program, byteOf]

section Result

variable {call : Call} {a0 : Nat} {input : List UInt8}

/-- A system call that returns. -/
theorem trap_value (hcause : t.cause = .ecall) (hcall : callOf t.frame = some call)
    (h : (s.inKernel L t).handleSyscall L fs s.input t.now call = .ok (.value a0, k', input)) :
    s.trap L fs t = .ok (goOn L (setResult L k' s.kernel.cur a0) s.kernel.cur input
      (((s.inKernel L t).csrOps L fs s.input call).foldl CsrOp.run (sstatusTrap s.sstatus))
      (t.frame tfPc + 4)) := by
  unfold trap
  simp only [hcause, hcall, h, ok_bind]

/-- A system call that leaves the kernel through another process. -/
theorem trap_switched (hcause : t.cause = .ecall) (hcall : callOf t.frame = some call)
    (h : (s.inKernel L t).handleSyscall L fs s.input t.now call = .ok (.switched, k', input)) :
    s.trap L fs t = .ok (resume L k' input
      (((s.inKernel L t).csrOps L fs s.input call).foldl CsrOp.run (sstatusTrap s.sstatus))) := by
  unfold trap
  simp only [hcause, hcall, h, ok_bind]

/-- After a call that has returned, the process is free again. -/
theorem Called.goOn {F' : List Nat} {data : List UInt8} {a7 a0' a1 a2 : Nat} {sstatus : BitVec 64}
    (h : Called L s F c (callFrame a7 a0' a1 a2) data t) (hr : Running L k' F' c)
    (hc : HasCode k' c (program data)) :
    Free L (Machine.goOn L (setResult L k' c a0) c input sstatus (t.frame tfPc + 4)) F' c := by
  have hcode : HasCode (setResult L k' c a0) c (program data) :=
    hc.lowWrite hr.toInv hr.live hr.pageTable fun a ha => store64_outside (by
      have := tfStackFrame_lt L c
      unfold tfA0 frameSize at *
      omega)
  refine ⟨hr.setResult a0, ⟨_, hcode⟩, ?_⟩
  rw [goOn_pc, h.frame, callFrame_pc]
  exact noEcall_next (hr.setResult a0) hcode

end Result

end Machine

/-! ## Strings of the program -/

/-- `strcmp` of a name with the string at `x`. -/
def strEqAt (bytes : Mem) : Nat → List UInt8 → Bool
  | x, [] => bytes x == 0
  | x, c :: cs => bytes x == c && strEqAt bytes (x + 1) cs

namespace HasCode

variable (h : HasCode k c bytes) (hr : Running L k F c)
include h hr

theorem strEq {name : List UInt8} (hx : x + name.length < 4096) :
    k.strEq (userBase + x) name = .ok (strEqAt bytes x name) := by
  induction name generalizing x with
  | nil => rw [Kernel.strEq, h.loadU8 hr (by simpa using hx), ok_bind, strEqAt]
  | cons b name ih =>
      rw [List.length_cons] at hx
      rw [Kernel.strEq, h.loadU8 hr (by omega), ok_bind, strEqAt]
      by_cases hb : bytes x = b
      · rw [if_pos hb, Nat.add_assoc, ih (by omega), hb, beq_self_eq_true, Bool.true_and]
      · rw [if_neg hb, beq_false_of_ne hb, Bool.false_and]

theorem loadStr (hx : x + n ≤ 4096) : ∃ l, k.loadStr (userBase + x) n = .ok l := by
  induction n generalizing x with
  | zero => exact ⟨[], rfl⟩
  | succ n ih =>
      obtain ⟨l, hl⟩ := ih (x := x + 1) (by omega)
      rw [Kernel.loadStr, h.loadU8 hr (by omega), ok_bind]
      split
      · exact ⟨[], rfl⟩
      · rw [Nat.add_assoc, hl]
        exact ⟨_, rfl⟩

/-- The process names the shell's program. -/
theorem tarfsLookup_shell {data : List UInt8} (hbytes : bytes = Machine.program (shellName ++ 0 :: data)) :
    k.tarfsLookup Machine.dataVa tinyFs = .ok (some tinyElf) := by
  subst hbytes
  have hidle : k.strEq Machine.dataVa idleName = .ok false := h.strEq hr (x := 64) (by decide)
  have hshell : k.strEq Machine.dataVa shellName = .ok true := h.strEq hr (x := 64) (by decide)
  simp only [tinyFs, Kernel.tarfsLookup, hidle, hshell, ok_bind, Bool.false_eq_true, if_false, if_true]

end HasCode

end RiscvOs
