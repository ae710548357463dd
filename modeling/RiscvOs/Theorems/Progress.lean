import RiscvOs.Lemmas.Access
import RiscvOs.Theorems.Reclaim

/-!
# The kernel serves the calls that it can serve

A trap leads on: where the caller has the memory that its call names, and there is room for the pages that it takes,
the kernel neither panics nor faults, and it does not wait for ever.
-/

namespace RiscvOs

open ByteMem Outcome Kernel Lts

variable {L : Layout} {fs : Initramfs} {k k' : Kernel} {F : List Nat} {c : Fin procsMax} {elf : Elf} {call : Call}
  {input now : List UInt8} {s s' s₀ : Machine} {t : Trap} {l : List Trap}

/-- One page moves the bump pointer by one page at most. -/
theorem Phys.allocPages_next {o pa : Nat} {p p' : Phys} (hlt : p.nextPaddr + 4096 < 2 ^ 64)
    (h : p.allocPages L o 1 = .ok (pa, p')) : p'.nextPaddr ≤ p.nextPaddr + 4096 := by
  have hmod : (p.nextPaddr + 4096) % 2 ^ 64 = p.nextPaddr + 4096 := Nat.mod_eq_of_lt hlt
  by_cases h0 : p.freeList = 0
  · simp only [allocPages, allocFreeList, h0, ↓reduceIte, ne_eq, not_true_eq_false, ite_error_eq_ok, Except.ok.injEq,
      Prod.mk.injEq, hmod] at h
    obtain ⟨-, -, rfl⟩ := h
    rw [trackAlloc_nextPaddr]
  · rw [allocPages_of_freeList h0] at h
    simp only [Except.ok.injEq, Prod.mk.injEq] at h
    obtain ⟨-, rfl⟩ := h
    rw [trackAlloc_nextPaddr]
    exact Nat.le_add_right _ _

namespace Kernel

/-! ## What a call needs -/

/-- The pages that `sys_exec` takes for a program: its image lies behind the bump pointer. -/
structure ExecRoom (L : Layout) (k : Kernel) (elf : Elf) : Prop where
  block : k.phys.nextPaddr + (imagePages elf + 1) * 4096 ≤ L.freeRamEnd
  pages : 535 + 2 * imagePages elf ≤ k.phys.room L

/-- The caller has the memory that the call names, there is room for what the call takes, and what it waits for
comes. -/
def Granted (L : Layout) (fs : Initramfs) (k : Kernel) (c : Fin procsMax) (input : List UInt8) : Call → Prop
  | .read fd buf len => readRefused fd buf len ∨ k.Sees c buf len ∧ (len ≤ input.length ∨ newline ∈ input)
  | .write fd buf len => fd ≠ 1 ∨ k.Sees c buf len
  | .fork => k.freeSlot = none ∨
    max (k.procs c).heapEnd (k.procs c).userStackTop ≤ 0x10000000 ∧ 518 + k.copyCount ≤ k.phys.room L
  -- without arguments
  | .exec filename _ argc => argc ≤ 1 ∧ k.SeesString c filename ∧
    ∀ elf, k.tarfsLookup filename fs = .ok (some elf) → k.ExecRoom L elf
  | .wait status => (k.findZombie = none → k.table.Switches) ∧ (status = 0 ∨ k.Sees c status 4)
  | .sbrk inc => 3 * Phys.pagesUpTo (pgRoundUp (k.procs c).heapEnd) (((k.procs c).heapEnd + inc) % 2 ^ 64).toNat ≤
    k.phys.room L
  | .ipcSend destPid buf size => destPid ≠ 0 ∧ (size ≤ maxMsgSize → k.Sees c buf size)
  | .ipcRecv buf maxSize senderPid =>
    k.Sees c buf (min (k.procs c).inbox.size maxSize) ∧ (senderPid = 0 ∨ k.Sees c senderPid 4)
  | .tarfsExists filename => k.SeesString c filename
  | .log msg => msg = 0 ∨ k.SeesString c msg
  | .yield | .exit _ | .clear | .sysinfo _ | .time _ | .putchar _ | .ps | .ls => True

/-! ## Calls -/

/-- With room for a program, `sys_exec` loads it. -/
theorem loadLinked_total (hs : AllocOk L k.phys F) (ht : TrackOk L k.phys F) (he : elf.Linked)
    (hblock : k.phys.nextPaddr + imagePages elf * 4096 ≤ L.freeRamEnd)
    (hr : 534 + 2 * imagePages elf ≤ k.phys.room L) :
    ∃ i k', k.extractFlatBinaryFromElf L elf false = .ok (i, k') := by
  obtain ⟨h1, h2, h3, h4, -, -⟩ := he.span
  have himg : (elf.imageSize + 4095) / 4096 = imagePages elf := rfl
  have hn : 0 < imagePages elf := by omega
  obtain ⟨flat, s, hal, hr1⟩ := allocPages_total (o := k.owner) hs (by omega) hn fun _ => hblock
  obtain ⟨k₁, hload, hphys⟩ : ∃ k₁, k.loadImage L elf = .ok (flat, k₁) ∧
      k₁.phys = { s with mem := elf.copySegments (memset s.mem flat 0 elf.imageSize) flat } := by
    refine ⟨{ k with
      phys := { s with mem := elf.copySegments (memset s.mem flat 0 elf.imageSize) flat }
      gUserStackTop := 0x1020000, gUserStackBottom := 0x1010000
      gUserHeapStart := 0x3000000, gUserHeapEnd := 0x3020000 }, ?_, rfl⟩
    unfold loadImage
    rw [if_neg (not_not.mpr he.magic), he.stackTop, he.stackBottom, he.heapStart, he.heapEnd]
    simp only [bind_eq_ok, ok_bind, Prod.exists]
    exact ⟨_, _, hal, rfl⟩
  have hroom : k₁.phys.room L = s.room L := by
    rw [hphys]
    rfl
  obtain ⟨F₁, hi⟩ := loadImage_spec hs ht he hload
  obtain ⟨pt, s', hb, -⟩ : ∃ pt s', k₁.phys.buildSpace L k₁.owner flat elf.imageSize
      k₁.gUserStackTop k₁.gUserStackBottom k₁.gUserHeapStart = .ok (pt, s') ∧
        k₁.phys.room L ≤ s'.room L + 516 + (elf.imageSize + 4095) / 4096 +
          ((k₁.gUserStackTop - k₁.gUserStackBottom) / 4096 + 1) := by
    rw [hi.globals.stackTop, hi.globals.stackBottom, hi.globals.heapStart]
    refine buildSpace_slack hi.grows.ok hi.grows.track ?_ (by decide) (by decide) (by decide) (by decide) ?_
    · unfold userBase at *
      omega
    · rw [himg, hroom]
      omega
  simp only [extractFlatBinaryFromElf, execProcess, bind_eq_ok, Prod.exists, Bool.false_eq_true, if_false]
  exact ⟨_, _, flat, k₁, hload, pt, s', hb, rfl⟩

/-- `process_free_userspace` gives pages back and leaves the bump pointer. -/
theorem processFree_room {i : Fin procsMax} {n : Nat} (hk : k.Inv L F) (hl : k.Live i)
    (hpt : (k.procs i).pageTable ≠ 0) (hn : k.freeRounds i = .ok n) : ∃ k', k.processFreeUserspace i = .ok k' ∧ k.phys.room L ≤ k'.phys.room L ∧
      k'.phys.nextPaddr = k.phys.nextPaddr := by
  have hp := hk.proc i hl
  obtain ⟨t₁, t₂, F', ht1, ht2, hf⟩ := freeSpace_spec hk.ok hk.track (hp.spaceOk hpt)
    (fun v hv => (hp.map hpt).rwx hv) n
  refine ⟨_, by rw [processFreeUserspace_eq hpt, hn, ok_bind, ht1, ok_bind, ht2, ok_bind], ?_, ?_⟩
  · exact hf.room_le hk.ok
  · exact hf.next

namespace Running

variable (h : Running L k F c)
include h

theorem execElf_room {buf : List UInt8} {argv : Nat} {argc : Int} (he : elf.Linked)
    (hheap : (k.procs c).heapEnd ≤ kernelBase) (hargc : argc ≤ 1) (hr : k.ExecRoom L elf) :
    ∃ r, k.execElf L elf buf argv argc = .ok r := by
  obtain ⟨n, hn⟩ := freeRounds_of_le (i := c) hheap (by rw [h.globals.stackTop]; decide)
  have hroom := hr.pages
  obtain ⟨argvBuf, s, hal, hr1⟩ := h.ok.allocPages_room (o := k.owner) (by omega)
  have hblock := hr.block
  have hnext := Phys.allocPages_next (by have := h.ok.next_lt; omega) hal
  have hcopy : copyArgv { k with phys := s } argvBuf argv argc = .ok { k with phys := s } := if_neg (by omega)
  obtain ⟨F₁, hi1, _⟩ := argvBuf_spec (c := c) h.toInv hal (by omega) hcopy
  obtain ⟨kB, hB⟩ : ∃ kB : Kernel, kB = { k with phys := s, satp := k.kernelPagetable } := ⟨_, rfl⟩
  have hpB : kB.procs = k.procs := by rw [hB]
  have hphysB : kB.phys = s := by rw [hB]
  have hiB : kB.Inv L F₁ := hi1.relabel hphysB fun i => by
    rw [hpB]
    exact .refl _
  have hcur : kB.cur = c := cur_eq (by rw [hB]; exact h.current)
  have hlB : kB.Live c := by
    rw [Live, hpB]
    exact h.live
  have hptB : (kB.procs c).pageTable ≠ 0 := by
    rw [hpB]
    exact h.full c h.live
  obtain ⟨k₂, h2, hr2, hnext2⟩ := processFree_room (n := n) hiB hlB hptB (by rw [hB]; exact hn)
  obtain ⟨F₂, hi2, -⟩ := processFree_spec hiB hlB hptB h2
  rw [hphysB] at hr2 hnext2
  obtain ⟨i, k₃, h3⟩ := loadLinked_total hi2.ok hi2.track he (by rw [hnext2]; omega) (by omega)
  have hpush : ∀ k : Kernel, k.pushArgv L argvBuf argc = .ok (k.gUserStackTop, 0, k) := fun _ => if_neg (by omega)
  unfold execElf
  simp only [bind_eq_ok, Prod.exists]
  refine ⟨_, _, argvBuf, s, hal, _, hcopy, k₂, ?_, i, k₃, h3, _, _, _, hpush _, rfl⟩
  rw [← hcur, hB] at h2
  exact h2

/-- The loop of `sys_read` ends with the line or with the buffer, or it leaves the kernel. -/
theorem readLoop_total {buf j n : Nat} (hs : k.Sees c (buf + j) n) (hin : n ≤ input.length ∨ newline ∈ input) :
    ∃ r, k.readLoop L buf j n input = .ok r := by
  induction n generalizing k j input with
  | zero => exact ⟨_, rfl⟩
  | succ n ih =>
      cases input with
      | nil => simp at hin
      | cons b input =>
          obtain ⟨hlt, b', hb'⟩ := hs.head
          obtain ⟨k₁, h1⟩ := h.storeU8_total b hlt (Option.isSome_iff_exists.mpr ⟨b', hb'⟩)
          have hw := storeU8_spec h.toInv h.live h.pageTable h.active hlt h1
          have hr := h.userWrites hw
          rw [readLoop, h1, ok_bind]
          split
          · exact ⟨_, rfl⟩
          rename_i hline
          cases hy : k₁.yield L with
          | mk k₂ left =>
              cases left with
              | true => exact ⟨_, rfl⟩
              | false =>
                  have hsw := yield_switched (k := k₁) (L := L)
                  rw [hy] at hsw
                  have hr₂ := hr.yield_stay (of_decide_eq_false hsw.symm)
                  have hphys := yield_phys (k := k₁) (L := L)
                  have htable := (yield_same L k₁ c).pageTable
                  rw [hy] at hr₂ hphys htable
                  refine ih hr₂ (hs.tail.congr fun x hx hv => ?_) ?_
                  · rw [hphys, htable]
                    exact h.storeU8_sees hlt h1 hx hv
                  · rw [List.length_cons, List.mem_cons] at hin
                    exact hin.imp (by omega) fun hm => hm.resolve_left fun he => hline he.symm

theorem sysWait_total {status : Nat} (hm : ∀ i, k.Live i → k.Halves L i)
    (hnone : k.findZombie = none → k.table.Switches) (hst : status = 0 ∨ k.Sees c status 4) :
    ∃ r, k.sysWait L status = .ok r := by
  unfold sysWait
  cases hz : k.findZombie with
  | none =>
      have hsw := yield_switched (k := k) (L := L)
      rw [decide_eq_true (hnone hz)] at hsw
      cases hy : k.yield L with
      | mk k₁ left =>
          rw [hy] at hsw
          dsimp only at hsw
          subst hsw
          exact ⟨_, rfl⟩
  | some z =>
      obtain ⟨hzs, -⟩ := findZombie_some hz
      have hzl : k.Live z := by
        rw [Live, hzs]
        decide
      obtain ⟨k₁, h1, hr, hw⟩ : ∃ k₁, k.storeStatus L status (k.procs z).exitCode = .ok k₁ ∧ Running L k₁ F c ∧
          UserWrites k c k₁ := by
        unfold storeStatus
        split
        · exact ⟨k, rfl, h, .refl _ _⟩
        · rename_i hne
          obtain ⟨k₁, h1, hr, hw, -⟩ :=
            h.storeBytes_total ((List.range 4).map (byteOf (k.procs z).exitCode)) (by simpa using hst.resolve_left hne)
          exact ⟨k₁, h1, hr, hw⟩
      have hl₁ : k₁.Live z := by
        rw [hw.live]
        exact hzl
      obtain ⟨n, hn⟩ := freeRounds_of_le (k := k₁) (i := z) (by rw [hw.procs]; exact (hm z hzl).heapEnd)
        (by rw [hr.globals.stackTop]; decide)
      obtain ⟨k₂, h2⟩ := freeProc_total hr.toInv hl₁ (hr.full z hl₁) hn
      exact ⟨_, by simp only [h1, ok_bind, h2]; rfl⟩

theorem sysIpcRecv_total {buf maxSize senderPid : Nat} (hb : k.Sees c buf (min (k.procs c).inbox.size maxSize))
    (hst : senderPid = 0 ∨ k.Sees c senderPid 4) : ∃ r, k.sysIpcRecv L buf maxSize senderPid = .ok r := by
  unfold sysIpcRecv
  rw [h.cur]
  dsimp only
  split
  · exact ⟨_, rfl⟩
  obtain ⟨k₁, h1, hr, -, hsees⟩ :=
    h.storeBytes_total ((k.procs c).inbox.copied maxSize) (by simpa [IpcMessage.copied] using hb)
  obtain ⟨k₂, h2⟩ : ∃ k₂, k₁.storeSender L senderPid (k.procs c).inbox.sender = .ok k₂ := by
    unfold storeSender
    split
    · exact ⟨_, rfl⟩
    · rename_i hne
      obtain ⟨k₂, h2, -⟩ := hr.storeBytes_total ((List.range 4).map (byteOf (k.procs c).inbox.sender))
        (by simpa using (hst.resolve_left hne).congr hsees)
      exact ⟨k₂, h2⟩
  exact ⟨_, by simp only [h1, ok_bind, h2]; rfl⟩

/-- A call that is granted comes back, or leaves the kernel through another process. -/
theorem handleSyscall_total (hfs : ∀ f ∈ fs, f.2.Linked) (hnames : ∀ f ∈ fs, 0 ∉ f.1)
    (hm : ∀ i, k.Live i → k.Halves L i) (hg : k.Granted L fs c input call) :
    ∃ ret k' input', k.handleSyscall L fs input now call = .ok (ret, k', input') := by
  have hcur := h.cur
  have hl : k.Live k.cur := hcur.symm ▸ h.live
  cases call <;> simp only [handleSyscall, bind_eq_ok, Prod.exists, Except.ok.injEq, Prod.mk.injEq]
  case read fd buf len =>
    unfold sysRead
    split
    · exact ⟨_, _, _, rfl⟩
    · rename_i href
      obtain ⟨hsees, hin⟩ := hg.resolve_left (by simpa using href)
      obtain ⟨⟨ret, k', input'⟩, hr⟩ : ∃ r, k.readLoop L buf 0 len input = .ok r := h.readLoop_total hsees hin
      exact ⟨ret, k', input', hr⟩
  case write fd buf len =>
    unfold sysWrite
    split
    · exact ⟨_, _, _, _, _, rfl, rfl, rfl, rfl⟩
    · rename_i hfd
      obtain ⟨out, hout⟩ := h.loadBytes_total (hg.resolve_left hfd)
      exact ⟨_, _, _, _, _, bind_eq_ok.mpr ⟨out, hout, rfl⟩, rfl, rfl, rfl⟩
  case fork =>
    rcases hg with hfull | ⟨htop, hroom⟩
    · exact ⟨_, _, _, _, _, sysFork_full hfull, rfl, rfl, rfl⟩
    cases hslot : k.freeSlot with
    | none => exact ⟨_, _, _, _, _, sysFork_full hslot, rfl, rfl, rfl⟩
    | some i =>
        obtain ⟨k', hf, -⟩ := sysFork_total h.toInv hl (h.full _ hl) hslot (by rwa [hcur]) hroom
        exact ⟨_, _, _, _, _, hf, rfl, rfl, rfl⟩
  case exec filename argv argc =>
    obtain ⟨hargc, hname, hroom⟩ := hg
    obtain ⟨buf, hbuf⟩ := h.loadStr_total hname (procNameMaxLen - 1)
    obtain ⟨file, hfile⟩ := h.tarfsLookup_total hname hnames
    obtain ⟨r, hr⟩ : ∃ r, k.sysExec L fs filename argv argc = .ok r := by
      unfold sysExec
      rw [hbuf, ok_bind, hfile, ok_bind]
      cases file with
      | none => exact ⟨_, rfl⟩
      | some elf =>
          obtain ⟨f, hf, rfl⟩ := tarfsLookup_mem hfile
          exact h.execElf_room (hfs f hf) (hm c h.live).heapEnd hargc (hroom f.2 hfile)
    exact ⟨_, _, _, r.1, r.2, hr, rfl, rfl, rfl⟩
  case wait status =>
    obtain ⟨r, hr⟩ := h.sysWait_total hm hg.1 hg.2
    exact ⟨_, _, _, r.1, r.2, hr, rfl, rfl, rfl⟩
  case sbrk inc =>
    obtain ⟨r, hr⟩ : ∃ r, k.sysSbrk L inc = .ok r := h.sysSbrk_total (by rwa [hcur])
    exact ⟨_, _, _, r.1, r.2, hr, rfl, rfl, rfl⟩
  case sysinfo arg0 =>
    obtain ⟨ret, k', hr⟩ := h.copyToUser_total (hm c h.live) arg0 k.sysinfo
    exact ⟨_, _, _, _, _, hr, rfl, rfl, rfl⟩
  case time arg0 =>
    obtain ⟨ret, k', hr⟩ := h.copyToUser_total (hm c h.live) arg0 now
    exact ⟨_, _, _, _, _, hr, rfl, rfl, rfl⟩
  case ipcSend destPid buf size =>
    obtain ⟨r, hr⟩ : ∃ r, k.sysIpcSend destPid buf size = .ok r := by
      unfold sysIpcSend
      split
      · exact ⟨_, rfl⟩
      rename_i hdest
      have hpid : getProcByPid destPid = some ⟨(destPid - 1).toNat, by omega⟩ := dif_pos (by have := hg.1; omega)
      rw [hpid]
      dsimp only
      split
      · exact ⟨_, rfl⟩
      split
      · exact ⟨_, rfl⟩
      rename_i hsize _
      obtain ⟨bytes, hb⟩ := h.loadBytes_total (hg.2 (by omega))
      exact ⟨_, by rw [hb, ok_bind]⟩
    exact ⟨_, _, _, r.1, r.2, hr, rfl, rfl, rfl⟩
  case ipcRecv buf maxSize senderPid =>
    obtain ⟨r, hr⟩ := h.sysIpcRecv_total hg.1 hg.2
    exact ⟨_, _, _, r.1, r.2, hr, rfl, rfl, rfl⟩
  case tarfsExists filename =>
    obtain ⟨file, hfile⟩ := h.tarfsLookup_total hg hnames
    exact ⟨_, _, _, _, bind_eq_ok.mpr ⟨file, hfile, rfl⟩, rfl, rfl, rfl⟩
  case log msg =>
    unfold sysLog
    split
    · exact ⟨_, _, _, _, _, rfl, rfl, rfl, rfl⟩
    · rename_i hne
      obtain ⟨text, htext⟩ := h.loadStr_total (hg.resolve_left hne) 255
      exact ⟨_, _, _, _, _, bind_eq_ok.mpr ⟨text, htext, rfl⟩, rfl, rfl, rfl⟩
  all_goals exact ⟨_, _, _, rfl, rfl, rfl⟩

end Running

end Kernel

/-! ## Traps -/

namespace Machine

/-- The kernel serves a call that is granted. -/
theorem Runs.trap_total (hfs : ∀ f ∈ fs, f.2.Linked) (hnames : ∀ f ∈ fs, 0 ∉ f.1) (hruns : s.Runs L t)
    (hr : Running L s.kernel F c) (hm : ∀ i, s.kernel.Live i → s.kernel.Halves L i)
    (hknown : t.cause = .ecall → callOf t.frame ≠ none)
    (hgrant : ∀ call, t.request = some call → (s.inKernel L t).Granted L fs c s.input call) :
    ∃ s', s.Step L fs t s' := by
  have hk := hruns.inKernel hr
  have hm' : ∀ i, (s.inKernel L t).Live i → (s.inKernel L t).Halves L i := fun i hl =>
    (hm i hl).congr hl (hruns.inKernel_sameMap hr i)
  obtain ⟨s', hs'⟩ : ∃ s', s.trap L fs t = .ok s' := by
    unfold trap
    cases hcause : t.cause with
    | timer => exact ⟨_, rfl⟩
    | ecall =>
        obtain ⟨call, hcall⟩ := Option.ne_none_iff_exists'.mp (hknown hcause)
        have hreq : t.request = some call := by rw [Trap.request, hcause, hcall]
        obtain ⟨ret, k', input, h⟩ : ∃ ret k' input,
            (s.inKernel L t).handleSyscall L fs s.input t.now call = .ok (ret, k', input) :=
          hk.handleSyscall_total hfs hnames hm' (hgrant call hreq)
        dsimp only
        rw [hcall]
        dsimp only
        rw [h, ok_bind]
        cases ret <;> exact ⟨_, rfl⟩
  exact ⟨s', hruns, hs'⟩

end Machine

end RiscvOs
