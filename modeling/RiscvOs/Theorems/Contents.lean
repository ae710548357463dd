import RiscvOs.Lemmas.Loader
import RiscvOs.Theorems.Argv
import RiscvOs.Theorems.Child
import RiscvOs.Theorems.Sbrk
import RiscvOs.Theorems.Wait

/-!
# What a process finds in new memory

The pages that a process gets have had other owners. What it finds there when it begins a program or moves its
break depends on the file and on its call alone.
-/

namespace RiscvOs

open ByteMem Outcome Kernel Lts

variable {L : Layout} {fs : Initramfs} {k k' k₁ : Kernel} {F F' : List Nat} {c ep : Fin procsMax}
  {s s' s₀ s₁ : Machine} {t : Trap} {l l₀ : List Trap} {elf : Elf} {m : Mem} {flat x n sp sp' argvPtr argvBuf : Nat}
  {filename argv : Nat} {argc inc : Int} {ret : SysRet} {ptrs ptrs' : List Nat}

/-! ## The image of a file -/

namespace Elf

/-- Byte `x` of the flat image that the loader makes in cleared memory. -/
def flatByte (elf : Elf) (x : Nat) : UInt8 := elf.copySegments (fun _ => 0) 0 x

/-- What a program sees when it begins: the flat image from `USER_BASE` on, except where its stack and the first page
of its heap are. These are zero. -/
def programView (elf : Elf) (va : Nat) : Option UInt8 :=
  if 0x1010000 ≤ va ∧ va < 0x1021000 ∨ 0x3000000 ≤ va ∧ va < 0x3001000 then some 0
  else if userBase ≤ va ∧ va < userBase + elf.imageSize then some (elf.flatByte (va - userBase))
  else none

/-- What was in memory before and where the image lies make no difference to its bytes. -/
theorem Spans.copySegments_byte (h : elf.Spans) (hflat : flat + elf.imageSize < 2 ^ 64) (hx : x < elf.imageSize) :
    elf.copySegments (memset m flat 0 elf.imageSize) flat (flat + x) = elf.flatByte x := by
  rw [flatByte, h.copySegments_eq hflat, h.copySegments_eq (by omega)]
  simp only [Nat.zero_add]
  exact foldl_write_shift (memset_inside (by omega) (by omega))

end Elf

theorem userView_of_userByte {root va : Nat} {b : UInt8} (h : Phys.userByte m root va = some b) :
    userView m root va = some b := by
  unfold Phys.userByte at h
  split at h
  · rename_i hu
    obtain ⟨a, ha⟩ := Option.isSome_iff_exists.mp hu
    obtain ⟨pg, hf, rfl⟩ := translate_user ha
    obtain ⟨a', ha', rfl⟩ := Option.map_eq_some_iff.mp h
    unfold Phys.translate at ha ha'
    simp only [Option.ite_none_right_eq_some, Option.some.injEq] at ha ha'
    rw [userView_of_frame hf, ← ha.2, ha'.2]
  · cases h

namespace Kernel

theorem dataPage_iff (hx : x < kernelBase) : DataPage 0x1020000 0x1010000 0x3000000 (vpn x) ↔
    0x1010000 ≤ x ∧ x < 0x1021000 ∨ 0x3000000 ≤ x ∧ x < 0x3001000 := by
  unfold kernelBase at hx
  constructor
  · rintro (⟨i, hi, h⟩ | h) <;> rw [vpn_eq_iff] at h <;> omega
  · rintro (h | h)
    · exact .inl ⟨(x - 0x1010000) / 4096, by omega, by rw [vpn_eq_iff]; omega⟩
    · exact .inr (by rw [vpn_eq_iff]; omega)

/-- The user sees the flat image, where the pages of the stack and the heap do not replace it. -/
theorem buildSpace_view {p p' : Phys} {o root imageSize : Nat} (hs : AllocOk L p F) (ht : TrackOk L p F)
    (hflat : flat % 4096 = 0) (hsize : imageSize % 4096 = 0) (himg : userBase + imageSize ≤ kernelBase)
    (htaken : ∀ pg, InBlock flat (imageSize / 4096) pg → ¬Avail L p F pg)
    (hok : p.buildSpace L o flat imageSize 0x1020000 0x1010000 0x3000000 = .ok (root, p')) (hx : x < kernelBase) :
    userView p'.mem root x =
      if 0x1010000 ≤ x ∧ x < 0x1021000 ∨ 0x3000000 ≤ x ∧ x < 0x3001000 then some 0
      else if userBase ≤ x ∧ x < userBase + imageSize then some (p.mem (flat + (x - userBase))) else none := by
  obtain ⟨-, -, huser, -, -, -, hdata, hzero⟩ := buildSpace_spec hs ht hok
  split
  · rename_i hd
    have hpage := (dataPage_iff hx).mpr hd
    obtain ⟨pg, hu⟩ := (hdata _ hpage).user
    rw [userView_of_frame hu.frame, hzero _ pg _ hpage hu.frame (Nat.mod_lt _ (by decide))]
  · rename_i hd
    rw [← dataPage_iff hx] at hd
    split
    · rename_i hin
      have hbyte := (buildSpace_byte hs ht hflat hsize himg htaken (show x - userBase < imageSize by omega) hok).1
      rw [show userBase + (x - userBase) = x by omega] at hbyte
      exact userView_of_userByte (hbyte hd)
    · rename_i hout
      refine userView_eq_none (Option.eq_none_iff_forall_not_mem.mpr fun pg hpg => ?_)
      rcases huser _ pg hpg with ⟨i, hi, hv⟩ | hv
      · rw [vpn_eq_iff] at hv
        unfold userBase kernelBase at *
        omega
      · exact hd hv

/-- The address space that `exec_process` makes for a program shows its file and zeros. -/
theorem load_view (hk : k.Inv L F) (he : elf.Linked)
    (h : k.extractFlatBinaryFromElf L elf false = .ok (ep, k')) (hx : x < kernelBase) :
    userView k'.phys.mem (k'.procs ep).pageTable x = elf.programView x := by
  simp only [extractFlatBinaryFromElf, execProcess, bind_eq_ok, Prod.exists, Bool.false_eq_true, if_false,
    Except.ok.injEq, Prod.mk.injEq] at h
  obtain ⟨flat, k₁, h1, pt, s', h2, rfl, rfl⟩ := h
  obtain ⟨hlow, -, hhigh, hsize, hal, -⟩ := he.span
  have hn := imagePages_pos he
  have hpages : imagePages elf = elf.imageSize / 4096 := by
    unfold imagePages
    omega
  obtain ⟨-, s, F₁, top, bottom, heap, heapEnd, hb, h3, h4, h5, -, hk₁⟩ :=
    loadImage_block hk.ok hk.track hn.1 (by omega) h1
  obtain rfl : 0x1020000 = top := Except.ok.inj (he.stackTop.symm.trans h3)
  obtain rfl : 0x1010000 = bottom := Except.ok.inj (he.stackBottom.symm.trans h4)
  obtain rfl : 0x3000000 = heap := Except.ok.inj (he.heapStart.symm.trans h5)
  obtain ⟨hflat, hend, hg⟩ := image_grows hk.ok hb hn.1 he.spans
  have hphys : k₁.phys = { s with mem := elf.copySegments (memset s.mem flat 0 elf.imageSize) flat } := by rw [hk₁]
  rw [← hphys] at hg
  have htaken : ∀ pg, InBlock flat (elf.imageSize / 4096) pg → ¬Avail L k₁.phys F₁ pg := by
    intro pg hpg hav
    rw [hphys] at hav
    exact ((hb.avail pg).mp hav).2 (hpages ▸ hpg)
  have himg : userBase + elf.imageSize ≤ kernelBase := by
    unfold userBase kernelBase at *
    omega
  have hsymbols : k₁.gUserStackTop = 0x1020000 ∧ k₁.gUserStackBottom = 0x1010000 ∧ k₁.gUserHeapStart = 0x3000000 := by
    rw [hk₁]
    exact ⟨rfl, rfl, rfl⟩
  rw [hsymbols.1, hsymbols.2.1, hsymbols.2.2] at h2
  rw [setProc_procs_self]
  refine (buildSpace_view hg.ok hg.track hflat hal himg htaken h2 hx).trans ?_
  unfold Elf.programView
  split
  · rfl
  · split
    · rw [hphys]
      exact congrArg some (he.spans.copySegments_byte (by omega) (by omega))
    · rfl

/-! ## The arguments -/

/-- Where the arguments of a new program begin. With one argument or none the stack is empty. -/
structure StackFrom (sp : Nat) (argc : Int) : Prop where
  ge : 0x1010000 ≤ sp
  le : sp ≤ 0x1020000
  empty : argc ≤ 1 → sp = 0x1020000

/-- But for its arguments, which begin at `sp`, process `c` sees what a new program does. -/
def SeesProgram (k : Kernel) (c : Fin procsMax) (elf : Elf) (sp : Nat) : Prop :=
  ∀ x < kernelBase, x < sp ∨ 0x1020000 ≤ x → userView k.phys.mem (k.procs c).pageTable x = elf.programView x

theorem UserWrites.globals (hw : UserWrites k c k') (hg : k.Globals) : k'.Globals := by
  rw [hw.state]
  exact ⟨hg.stackTop, hg.stackBottom, hg.heapStart, hg.heapEnd⟩

namespace Running

variable (h : Running L k F c)
include h

/-- The strings go to the stack, below where it ended before. -/
theorem pushArgs_view (hg : k.Globals) (hlo : 0x1010000 ≤ sp) (hhi : sp ≤ 0x1020000)
    (hs : k.pushArgs L argvBuf n sp ptrs = .ok (sp', ptrs', k')) (hx : x < kernelBase) :
    sp' ≤ sp ∧ (x < sp' ∨ sp ≤ x →
      userView k'.phys.mem (k'.procs c).pageTable x = userView k.phys.mem (k.procs c).pageTable x) := by
  induction n generalizing k sp ptrs with
  | zero =>
      simp only [pushArgs, Except.ok.injEq, Prod.mk.injEq] at hs
      obtain ⟨rfl, -, rfl⟩ := hs
      exact ⟨Nat.le_refl _, fun _ => rfl⟩
  | succ n ih =>
      have hlen := rowString_length k.phys.mem argvBuf n
      simp only [pushArgs] at hs
      generalize rowString k.phys.mem argvBuf n = str at hs hlen
      generalize hsp₁ : (sp + (2 ^ 64 - (str.length + 1))) % 2 ^ 64 / 8 * 8 = sp₁ at hs
      unfold maxArgLength at hlen
      rw [hg.stackBottom, ite_error_eq_ok] at hs
      obtain ⟨hbot, hs⟩ := hs
      simp only [bind_eq_ok] at hs
      obtain ⟨k₁, h1, h2⟩ := hs
      have hl : (str ++ [0]).length = str.length + 1 := by simp
      have hfit : sp₁ + (str ++ [0]).length ≤ kernelBase := by
        unfold kernelBase
        omega
      have hw := storeBytes_spec h.toInv h.live h.pageTable h.active hfit h1
      obtain ⟨hle, hview⟩ := ih (h.userWrites hw) (hw.globals hg) (by omega) (by omega) h2
      refine ⟨by omega, fun hout => ?_⟩
      rw [hview (by omega), h.storeBytes_view hfit h1 hx, overlay, if_neg (by omega)]

/-- Below the new stack pointer and from the old one on, `setup_user_arguments` stores nothing. -/
theorem pushArgv_view (hg : k.Globals) (hs : k.pushArgv L argvBuf argc = .ok (sp, argvPtr, k')) (hx : x < kernelBase) :
    StackFrom sp argc ∧ (x < sp ∨ 0x1020000 ≤ x →
      userView k'.phys.mem (k'.procs c).pageTable x = userView k.phys.mem (k.procs c).pageTable x) := by
  unfold pushArgv at hs
  split at hs
  case isFalse hargc =>
    simp only [Except.ok.injEq, Prod.mk.injEq] at hs
    obtain ⟨rfl, -, rfl⟩ := hs
    rw [hg.stackTop]
    exact ⟨⟨by decide, Nat.le_refl _, fun _ => rfl⟩, fun _ => rfl⟩
  case isTrue hargc =>
    simp only [bind_eq_ok, Prod.exists, Except.ok.injEq, Prod.mk.injEq] at hs
    obtain ⟨sp, k'', hs, rfl, -, rfl⟩ := hs
    unfold setupUserArguments at hs
    rw [ite_error_eq_ok] at hs
    obtain ⟨hmax, hs⟩ := hs
    simp only [bind_eq_ok, Prod.exists] at hs
    obtain ⟨sp₁, ptrs, k₁, h1, hs⟩ := hs
    rw [hg.stackTop] at h1
    obtain ⟨hw, hlo, hhi, hptrs⟩ := pushArgs_spec h.toInv h.live h.pageTable h.active hg (by decide) (Nat.le_refl _) h1
    obtain ⟨-, hview⟩ := h.pushArgs_view hg (by decide) (Nat.le_refl _) h1 hx
    rw [(hw.globals hg).stackBottom, ite_error_eq_ok] at hs
    obtain ⟨hbot, hs⟩ := hs
    simp only [bind_eq_ok, Except.ok.injEq, Prod.mk.injEq] at hs
    obtain ⟨k₂, h2, rfl, rfl⟩ := hs
    unfold maxArgs at hmax
    have hl : ((ptrs ++ [0]).flatMap fun p => (List.range 8).map (byteOf p)).length = 8 * (argc.toNat + 1) := by
      rw [flatMap_bytes_length, List.length_append, List.length_singleton, hptrs, List.length_nil, Nat.zero_add]
    refine ⟨⟨by omega, by omega, fun hle => absurd hle (by omega)⟩, fun hout => ?_⟩
    rw [(h.userWrites hw).storeBytes_view (by rw [hl]; unfold kernelBase; omega) h2 hx, overlay, if_neg (by omega),
      hview (by omega)]

/-! ## A new program -/

/-- A program with its arguments on the stack, before its trap frame is made. -/
theorem execArguments_view {buf : List UInt8} (he : elf.Linked)
    (hs : k.execArguments L elf buf argv argc = .ok (argvBuf, ep, sp, argvPtr, k')) (hx : x < kernelBase) :
    StackFrom sp argc ∧ (x < sp ∨ 0x1020000 ≤ x →
      userView k'.phys.mem (k'.procs c).pageTable x = elf.programView x) := by
  unfold execArguments at hs
  simp only [bind_eq_ok, Prod.exists, Except.ok.injEq, Prod.mk.injEq] at hs
  obtain ⟨argvBuf, s, hal, k₁, h1, k₂, h2, ep, k₃, h3, sp, argvPtr, k', h4, rfl, rfl, rfl, rfl, rfl⟩ := hs
  obtain ⟨F₁, hi₁, ht₁, hs₁, hsp₁, -, hst₁⟩ := argvBuf_spec (c := c) h.toInv hal (pushArgv_argc h4) h1
  obtain ⟨rfl, -, F₃, hexec, -⟩ := execElf_load buf h.toValid h.live he hi₁ ht₁ hs₁ hsp₁ hst₁ h.current h2 h3
  -- the old address space is given back before the program is loaded
  have hiB : Kernel.Inv L { k₁ with satp := k₁.kernelPagetable } F₁ := hi₁.relabel rfl fun _ => .refl _
  have hcur : k₁.cur = ep := by
    rw [hst₁]
    exact h.cur
  rw [hcur] at h2
  obtain ⟨F₂, hi₂, -⟩ := processFree_spec hiB (by rw [hst₁]; exact h.live) (by rw [hst₁]; exact h.pageTable) h2
  have hview := load_view hi₂ he h3 hx
  have hrun : Running L (k₃.activate L ep (stripElfExtension buf)) F₃ ep :=
    ⟨hexec.valid, hexec.current, hexec.live, hexec.active, hexec.idleProc.trans h.idleProc⟩
  obtain ⟨hsp, hpush⟩ := hrun.pushArgv_view hexec.valid.globals h4 hx
  refine ⟨hsp, fun hout => ?_⟩
  rw [hpush hout, ← hview, (activate_same (stripElfExtension buf) ep).pageTable]
  rfl

/-- A program that `sys_exec` has loaded. -/
theorem sysExec_view (hfs : ∀ f ∈ fs, f.2.Linked)
    (hset : k.execStack L fs filename argv argc = .ok (some (sp, argvPtr)))
    (hs : k.sysExec L fs filename argv argc = .ok (ret, k')) :
    k'.Live c ∧ StackFrom sp argc ∧ ∃ elf, k.tarfsLookup filename fs = .ok (some elf) ∧ k'.SeesProgram c elf sp := by
  unfold sysExec at hs
  unfold execStack at hset
  simp only [bind_eq_ok] at hs hset
  obtain ⟨buf, hbuf, found, hfound, hs⟩ := hs
  obtain ⟨buf', hbuf', found', hfound', hset⟩ := hset
  obtain rfl := Except.ok.inj (hbuf.symm.trans hbuf')
  obtain rfl := Except.ok.inj (hfound.symm.trans hfound')
  cases found with
  | none => cases hset
  | some elf =>
      simp only [bind_eq_ok, Prod.exists, Except.ok.injEq, Option.some.injEq, Prod.mk.injEq] at hset
      obtain ⟨argvBuf, ep, sp, argvPtr, k₁, harg, rfl, rfl⟩ := hset
      obtain ⟨f, hf, rfl⟩ := tarfsLookup_mem hfound
      dsimp only at hs
      rw [execElf_eq, harg] at hs
      simp only [ok_bind, Except.ok.injEq, Prod.mk.injEq] at hs
      obtain ⟨-, rfl⟩ := hs
      obtain ⟨rfl, kB, kA, F₁, hargs, hpush⟩ := execArguments_spec h.toValid h.current h.live (hfs f hf) harg
      obtain ⟨hexec, ⟨F₂, hstart⟩, hmem⟩ := hargs.startProgram hpush
      have hpt : ((k₁.startProgram L ep argvBuf sp argvPtr argc).procs ep).pageTable = (k₁.procs ep).pageTable := by
        unfold startProgram
        dsimp only
        rw [show (k₁.execFrame L ep argvBuf sp).cur = ep from cur_eq hexec.current, setProc_procs_self]
        rfl
      obtain ⟨hsp, -⟩ := h.execArguments_view (hfs f hf) harg (x := 0) (by decide)
      refine ⟨(yield_same L _ ep).live.mpr hstart.live, hsp, f.2, hfound, fun x hx hout => ?_⟩
      rw [(yield_same L _ ep).pageTable, yield_phys, hpt]
      have hagree : Agree (k₁.procs ep).pageTable k₁.phys.mem
          (k₁.startProgram L ep argvBuf sp argvPtr argc).phys.mem := hmem
      rw [hagree.userView ((hexec.valid.proc ep hexec.live).spaceOk hexec.pageTable)]
      exact (h.execArguments_view (hfs f hf) harg hx).2 hout

end Running

/-- What `sys_sbrk` adds to the memory of a process: the pages between the two breaks. -/
def Added (heapEnd : Nat) (inc : Int) (x : Nat) : Prop :=
  0 < inc ∧ pgRoundUp heapEnd ≤ x ∧ x < pgRoundUp (heapEnd + inc.toNat)

instance (heapEnd : Nat) (inc : Int) (x : Nat) : Decidable (Added heapEnd inc x) := inferInstanceAs (Decidable (_ ∧ _))

/-- A page between the breaks, as the loop of `sys_sbrk` finds it. -/
theorem sbrkPage_iff_added {heapEnd : Nat} (hlim : (heapEnd : Int) + inc ≤ kernelBase) (hx : x < kernelBase) :
    0 < inc ∧ SbrkPage heapEnd (((heapEnd : Int) + inc) % 2 ^ 64).toNat (vpn x) ↔ Added heapEnd inc x := by
  unfold Added SbrkPage
  refine and_congr_right fun hinc => ?_
  obtain ⟨n, rfl⟩ : ∃ n : Nat, inc = n := ⟨inc.toNat, by omega⟩
  have hnew : (((heapEnd : Int) + n) % 2 ^ 64).toNat = heapEnd + n := by
    unfold kernelBase at hlim
    omega
  rw [hnew, Int.toNat_natCast]
  unfold pgRoundUp Phys.pagesUpTo
  unfold kernelBase at hlim hx
  rw [if_neg (by omega)]
  constructor
  · rintro ⟨i, hi, hv⟩
    rw [vpn_eq_iff] at hv
    omega
  · rintro ⟨h1, h2⟩
    refine ⟨(x - (heapEnd + 4095) % 2 ^ 64 / 4096 * 4096) / 4096, by omega, ?_⟩
    rw [vpn_eq_iff]
    omega

namespace Running

/-- After `sys_sbrk` the pages between the breaks are zero, and everything else is as before. -/
theorem sysSbrk_view (h : Running L k F c) (hlim : ((k.procs c).heapEnd : Int) + inc ≤ kernelBase)
    (hs : k.sysSbrk L inc = .ok (ret, k')) (hx : x < kernelBase) :
    userView k'.phys.mem (k'.procs c).pageTable x =
      if Added (k.procs c).heapEnd inc x then some 0 else userView k.phys.mem (k.procs c).pageTable x := by
  obtain rfl := h.cur
  obtain ⟨-, F', hsb⟩ := sysSbrk_spec h.toInv h.live h.pageTable hs
  have hpt : (k'.procs k.cur).pageTable = (k.procs k.cur).pageTable := by
    rw [hsb.state, setProc_procs_self]
  rw [hpt]
  split
  · rename_i hg
    have hpage := (sbrkPage_iff_added hlim hx).mpr hg
    obtain ⟨pg, hu, -⟩ := hsb.extend.leaf _ hpage
    rw [userView_of_frame hu.frame, hsb.extend.fill _ pg _ hpage hu.frame (Nat.mod_lt _ (by decide))]
  · rename_i hg
    have hpage := mt (sbrkPage_iff_added hlim hx).mp hg
    have hleaf := hsb.extend.same _ hpage
    cases hf : userFrame (leafAt k.phys.mem (k.procs k.cur).pageTable (vpn x)) with
    | none => rw [userView_eq_none hf, userView_eq_none (by rw [hleaf, hf])]
    | some pg =>
        have hpg := (h.spaceOk.page pg (inSpace_of_frame hf))
        rw [userView_of_frame hf, userView_of_frame (by rw [hleaf, hf])]
        refine congrArg some (hpg.1.congr_mem (fun a ha => hsb.extend.grows.mem a ?_ ?_) (Nat.mod_lt _ (by decide)))
        · rw [ha]
          exact hpg.2
        · rw [ha]
          exact h.spaceOk.frame_not_table hf

end Running

end Kernel

namespace Machine

/-- A trap that loads a program. -/
theorem Step.exec_view (hfs : ∀ f ∈ fs, f.2.Linked) (hr : Running L s.kernel F c) (h : s.Step L fs t s₁)
    (hreq : t.request = some (.exec filename argv argc))
    (hset : (s.inKernel L t).execStack L fs filename argv argc = .ok (some (sp, argvPtr))) :
    s₁.kernel.Live c ∧ StackFrom sp argc ∧ ∃ elf, (s.inKernel L t).tarfsLookup filename fs = .ok (some elf) ∧
      s₁.kernel.SeesProgram c elf sp := by
  have hk := h.1.inKernel hr
  obtain ⟨ret, k', hexec, hcase⟩ := h.exec_handled hr hreq
  obtain ⟨hl, hsp, elf, hfound, hview⟩ := hk.sysExec_view hfs hset hexec
  rcases hcase with he | ⟨a0, rfl, he⟩ <;> rw [he]
  · exact ⟨hl, hsp, elf, hfound, hview⟩
  · obtain ⟨F', c', hr', hval⟩ := (hk.sysExec_served hfs hexec).running
    obtain rfl := hval a0 rfl
    refine ⟨hl, hsp, elf, hfound, fun x hx hout => ?_⟩
    rw [(setResult_stays hr' a0).userView hr'.spaceOk, hview x hx hout]

/-- The process that traps has moved its break when it goes on. -/
structure SbrkReturns (s : Machine) (t : Trap) (inc : Int) (s' : Machine) : Prop where
  cur : s'.kernel.cur = s.kernel.cur
  a0 : s'.user 10 = BitVec.ofNat 64 (s.kernel.procs s.kernel.cur).heapEnd
  pc : s'.user tfPc = t.frame tfPc + 4
  heapEnd : (s'.kernel.procs s.kernel.cur).heapEnd = (((s.kernel.procs s.kernel.cur).heapEnd + inc) % 2 ^ 64).toNat
  memory : ∀ x < kernelBase, userView s'.kernel.phys.mem (s'.kernel.procs s.kernel.cur).pageTable x =
    if Added (s.kernel.procs s.kernel.cur).heapEnd inc x then some 0
    else userView t.mem (s.kernel.procs s.kernel.cur).pageTable x

theorem Step.sbrkReturns (hfs : ∀ f ∈ fs, f.2.Linked) (hr : Running L s.kernel F c) (h : s.Step L fs t s')
    (hreq : t.request = some (.sbrk inc)) (hlim : ((s.kernel.procs c).heapEnd : Int) + inc ≤ kernelBase) :
    SbrkReturns s t inc s' := by
  obtain ⟨hruns, htrap⟩ := h
  have hk := hruns.inKernel hr
  obtain ⟨hcause, hcall⟩ := Trap.request_ecall hreq
  unfold trap at htrap
  simp only [hcause, hcall, bind_eq_ok, Prod.exists] at htrap
  obtain ⟨ret, k', input, hsys, htrap⟩ := htrap
  have hserved := hk.handleSyscall_served hfs (show Kernel.Careful _ _ c (.sbrk inc) from trivial) hsys
  simp only [Kernel.handleSyscall, bind_eq_ok, Prod.exists, Except.ok.injEq, Prod.mk.injEq] at hsys
  obtain ⟨ret, k', hsbrk, rfl, rfl, rfl⟩ := hsys
  obtain ⟨F', c', hr', hval⟩ := hserved.running
  obtain ⟨rfl, F₁, hsb⟩ := sysSbrk_spec hk.toInv (hk.cur.symm ▸ hk.live) (hk.cur.symm ▸ hk.pageTable) hsbrk
  obtain rfl := hval _ rfl
  have hstays := setResult_stays hr' ((s.inKernel L t).procs (s.inKernel L t).cur).heapEnd
  have hview := fun x hx => hk.sysSbrk_view (x := x) hlim hsbrk hx
  have hbrk : (k'.procs c').heapEnd = (((s.kernel.procs c').heapEnd + inc) % 2 ^ 64).toNat := by
    rw [hsb.state, hk.cur, setProc_procs_self]
    rfl
  simp only [Except.ok.injEq, hr.cur] at htrap
  rw [← htrap]
  refine ⟨?_, ?_, goOn_pc, ?_, fun x hx => ?_⟩
  · exact hr'.cur.trans hr.cur.symm
  · rw [hr.cur]
    refine goOn_a0.trans ?_
    rw [hk.cur]
    rfl
  · rw [hr.cur]
    exact hbrk
  · rw [hr.cur]
    refine (hstays.userView hr'.spaceOk x).trans ((hview x hx).trans ?_)
    rw [(atTrap_stays hr hruns).userView (hr.userWrites (hruns.userWrites hr)).spaceOk x]
    rfl

end Machine

end RiscvOs
