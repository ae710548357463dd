import RiscvOs.Theorems.Arguments
import RiscvOs.Theorems.Enter

/-!
# The arguments of a program

`sys_exec` carries the strings of its caller over to the new address space: into the page of `argv_buf`, through the
kernel, and onto the stack. It does so from two arguments on.
-/

namespace RiscvOs

open ByteMem Outcome Kernel Lts

variable {L : Layout} {fs : Initramfs} {k k' : Kernel} {F : List Nat} {c : Fin procsMax} {s s' s₀ s₁ : Machine}
  {t : Trap} {l l₀ : List Trap} {filename argv sp argvPtr argvBuf va p i n : Nat} {argc : Int} {ret : SysRet}
  {str : List UInt8} {strs : List (List UInt8)} {elf : Elf} {m : Mem}

namespace Kernel

/-- The process that runs may read the byte at `va`. -/
def UserReads (k : Kernel) (va : Nat) : Prop := (Machine.userAccess k (va % 2 ^ 64) pteR).isSome

/-- There is a pointer in memory that the process may read. -/
structure HasPtr (k : Kernel) (va p : Nat) : Prop where
  reads : ∀ x < 8, k.UserReads (va + x)
  load : k.loadU64 va = .ok p

/-- There is a string in memory that the process may read. With its 0 it has at most `MAX_ARG_LENGTH` bytes. -/
structure HasString (k : Kernel) (va : Nat) (str : List UInt8) : Prop where
  reads : ∀ x ≤ str.length, k.UserReads (va + x)
  load : k.loadStr va maxArgLength = .ok str
  short : str.length < maxArgLength

/-- An array of pointers to the strings. -/
def HasArgs (k : Kernel) (argv : Nat) (strs : List (List UInt8)) : Prop :=
  ∀ i (hi : i < strs.length), ∃ p, k.HasPtr (argv + 8 * i) p ∧ k.HasString p strs[i]

/-- The kernel in the address space of process `c`. -/
def inSpaceOf (k : Kernel) (c : Fin procsMax) : Kernel := { k with satp := (k.procs c).pageTable }

/-- Process `c` has the arguments: in its record their number and where they lie in its address space. NULL stands
behind the last one. -/
structure Argued (k : Kernel) (c : Fin procsMax) (strs : List (List UInt8)) : Prop where
  argc : (k.procs c).argc = strs.length
  argv : (k.procs c).argvPtr ≠ 0
  args : (k.inSpaceOf c).HasArgs (k.procs c).argvPtr strs
  last : (k.inSpaceOf c).HasPtr ((k.procs c).argvPtr + 8 * strs.length) 0

/-! ## What the process reads -/

/-- What the process reads, it also reads there. -/
def Reads (k k' : Kernel) : Prop := ∀ va, k.UserReads va → k'.UserReads va ∧ k'.loadU8 va = k.loadU8 va

theorem reads_of_space (hs : SpaceOk L k.phys F k.satp) (hsatp : k'.satp = k.satp)
    (hm : ∀ a, InSpace k.phys.mem k.satp (pageOf a) → k'.phys.mem a = k.phys.mem a) : Reads k k' := by
  intro va hva
  have hacc : ∀ mask, Machine.userAccess k' (va % 2 ^ 64) mask = Machine.userAccess k (va % 2 ^ 64) mask := fun _ =>
    Machine.userAccess_congr hs hsatp hm
  refine ⟨by rw [UserReads, hacc]; exact hva, ?_⟩
  obtain ⟨pa, hpa⟩ := Option.isSome_iff_exists.mp hva
  have htr : ∀ {k : Kernel}, Machine.userAccess k (va % 2 ^ 64) pteR = some pa → k.loadU8 va = .ok (k.phys.mem pa) := by
    intro k h
    unfold Machine.userAccess at h
    split at h
    · rw [loadU8, h]
    · cases h
  rw [htr hpa, htr ((hacc pteR).trans hpa), hm _ (Machine.userAccess_inSpace hs hpa)]

theorem loadU64_congr (h : ∀ x < 8, k'.loadU8 (va + x) = k.loadU8 (va + x)) : k'.loadU64 va = k.loadU64 va := by
  have h0 := h 0 (by decide)
  rw [Nat.add_zero] at h0
  simp only [loadU64, show List.range 8 = [0, 1, 2, 3, 4, 5, 6, 7] from rfl, List.foldlM_cons, List.foldlM_nil,
    Nat.add_zero, h0, h 1 (by decide), h 2 (by decide), h 3 (by decide), h 4 (by decide), h 5 (by decide),
    h 6 (by decide), h 7 (by decide)]

/-- A string is read up to its end only. -/
theorem loadStr_congr (h : k.loadStr va n = .ok str) (hm : ∀ x ≤ str.length, k'.loadU8 (va + x) = k.loadU8 (va + x)) :
    k'.loadStr va n = .ok str := by
  induction n generalizing va str with
  | zero => exact h
  | succ n ih =>
      have h0 : k'.loadU8 va = k.loadU8 va := hm 0 (Nat.zero_le _)
      simp only [loadStr, bind_eq_ok] at h ⊢
      obtain ⟨b, hb, h⟩ := h
      refine ⟨b, h0.trans hb, ?_⟩
      split at h
      · rename_i hz
        rw [if_pos hz]
        exact h
      · rename_i hz
        simp only [bind_eq_ok, Except.ok.injEq] at h
        obtain ⟨str', hstr, rfl⟩ := h
        rw [if_neg hz, ih hstr fun x hx => ?_]
        · rfl
        · have := hm (x + 1) (by rw [List.length_cons]; omega)
          rwa [Nat.add_assoc, Nat.add_comm 1 x]

/-- A string that ends before the limit is the same for any limit from its length on. -/
theorem loadStr_limit {n' : Nat} (h : k.loadStr va n = .ok str) (hn : str.length < n) (hn' : str.length ≤ n') :
    k.loadStr va n' = .ok str := by
  induction n generalizing va str n' with
  | zero => omega
  | succ n ih =>
      simp only [loadStr, bind_eq_ok] at h
      obtain ⟨b, hb, h⟩ := h
      split at h
      · rename_i hz
        obtain rfl := Except.ok.inj h
        cases n' with
        | zero => rfl
        | succ n' => simp only [loadStr, hb, ok_bind, if_pos hz]
      · rename_i hz
        simp only [bind_eq_ok, Except.ok.injEq] at h
        obtain ⟨str', hstr, rfl⟩ := h
        rw [List.length_cons] at hn hn'
        obtain ⟨n', rfl⟩ : ∃ j, n' = j + 1 := ⟨n' - 1, by omega⟩
        simp only [loadStr, hb, ok_bind, if_neg hz, ih hstr (by omega) (show str'.length ≤ n' by omega)]

theorem loadStr_no_zero (h : k.loadStr va n = .ok str) : 0 ∉ str := by
  induction n generalizing va str with
  | zero =>
      obtain rfl := Except.ok.inj h
      exact List.not_mem_nil
  | succ n ih =>
      simp only [loadStr, bind_eq_ok] at h
      obtain ⟨b, -, h⟩ := h
      split at h
      · obtain rfl := Except.ok.inj h
        exact List.not_mem_nil
      · rename_i hz
        simp only [bind_eq_ok, Except.ok.injEq] at h
        obtain ⟨str', hstr, rfl⟩ := h
        rw [List.mem_cons, not_or]
        exact ⟨Ne.symm hz, ih hstr⟩

section Reads

variable (hr : Reads k k')
include hr

theorem HasPtr.reads_in (h : k.HasPtr va p) : k'.HasPtr va p :=
  ⟨fun x hx => (hr _ (h.reads x hx)).1, (loadU64_congr fun x hx => (hr _ (h.reads x hx)).2).trans h.load⟩

theorem HasString.reads_in (h : k.HasString va str) : k'.HasString va str :=
  ⟨fun x hx => (hr _ (h.reads x hx)).1, loadStr_congr h.load fun x hx => (hr _ (h.reads x hx)).2, h.short⟩

theorem HasArgs.reads_in (h : k.HasArgs argv strs) : k'.HasArgs argv strs := fun i hi =>
  let ⟨p, hp, hs⟩ := h i hi
  ⟨p, hp.reads_in hr, hs.reads_in hr⟩

end Reads

/-- The arguments stay while the pages of the process do. -/
theorem Argued.congr (h : Argued k c strs) (hs : SpaceOk L k.phys F (k.procs c).pageTable)
    (hpt : (k'.procs c).pageTable = (k.procs c).pageTable) (hargc : (k'.procs c).argc = (k.procs c).argc)
    (hptr : (k'.procs c).argvPtr = (k.procs c).argvPtr)
    (hm : ∀ a, InSpace k.phys.mem (k.procs c).pageTable (pageOf a) → k'.phys.mem a = k.phys.mem a) :
    Argued k' c strs := by
  have hr : Reads (k.inSpaceOf c) (k'.inSpaceOf c) := reads_of_space hs hpt hm
  refine ⟨by rw [hargc, h.argc], by rw [hptr]; exact h.argv, ?_, ?_⟩ <;> rw [hptr]
  · exact h.args.reads_in hr
  · exact h.last.reads_in hr

/-! ## The rows of `argv_buf` -/

theorem rowString_of_bytes (hn : str.length < maxArgLength) (h0 : 0 ∉ str)
    (h : ∀ x < maxArgLength, m (argvRow argvBuf i + x) = str.getD x 0) : rowString m argvBuf i = str := by
  have hall : ∀ b ∈ str, (b != 0) = true := fun b hb => bne_iff_ne.mpr fun he => h0 (he ▸ hb)
  have hmap : (List.range maxArgLength).map (fun x => m (argvRow argvBuf i + x)) =
      str ++ List.replicate (maxArgLength - str.length) 0 := by
    refine List.ext_getElem (by simp; omega) fun x hx hx' => ?_
    rw [List.getElem_map, List.getElem_range, h x (by simpa using hx)]
    by_cases hlt : x < str.length
    · rw [List.getElem_append_left hlt, List.getD_eq_getElem _ _ hlt]
    · rw [List.getElem_append_right (by omega), List.getElem_replicate, List.getD_eq_default _ _ (by omega)]
  obtain ⟨j, hj⟩ : ∃ j, maxArgLength - str.length = j + 1 := ⟨maxArgLength - str.length - 1, by omega⟩
  rw [rowString, hmap, List.takeWhile_append_of_pos hall, hj, List.replicate_succ, List.takeWhile_cons_of_neg (by decide),
    List.append_nil]

/-- The loop that copies the arguments from number `i` on. It reads from the memory of the process, which it does not
touch, and fills a row for each argument. -/
theorem copyArgs_rows (hs : SpaceOk L k.phys F k.satp) (hal : argvBuf % 4096 = 0)
    (hout : ¬InSpace k.phys.mem k.satp argvBuf) (hargs : k.HasArgs argv strs) (h32 : strs.length ≤ 32) {s : Phys}
    (hm : ∀ a, InSpace k.phys.mem k.satp (pageOf a) → s.mem a = k.phys.mem a) (hn : i + n = strs.length)
    (h : copyArgs { k with phys := s } argvBuf argv i n = .ok k') :
    (∀ a < argvRow argvBuf i, k'.phys.mem a = s.mem a) ∧
      ∀ j (hj : j < strs.length), i ≤ j → ∀ x < maxArgLength, k'.phys.mem (argvRow argvBuf j + x) = strs[j].getD x 0 := by
  induction n generalizing i s with
  | zero =>
      obtain rfl := Except.ok.inj h
      exact ⟨fun _ _ => rfl, fun j hj hij => by omega⟩
  | succ n ih =>
      have hi : i < strs.length := by omega
      have hr : Reads k { k with phys := s } := reads_of_space hs rfl hm
      obtain ⟨p, hp, hstr⟩ := hargs i hi
      have hptr := (hp.reads_in hr).load
      have hshort := hstr.short
      have hload : loadStr { k with phys := s } p (maxArgLength - 1) = .ok strs[i] :=
        loadStr_limit (hstr.reads_in hr).load hshort (Nat.le_sub_one_of_lt hshort)
      rw [copyArgs, hptr, ok_bind, hload, ok_bind] at h
      have hrow : ∀ a, ¬(argvRow argvBuf i ≤ a ∧ a < argvRow argvBuf i + maxArgLength) →
          write s.mem (argvRow argvBuf i) maxArgLength (fun j => strs[i].getD j 0) a = s.mem a := fun a => write_outside
      have hkeep : ∀ a, InSpace k.phys.mem k.satp (pageOf a) →
          write s.mem (argvRow argvBuf i) maxArgLength (fun j => strs[i].getD j 0) a = k.phys.mem a := fun a ha => by
        refine (hrow a fun hx => hout ?_).trans (hm a ha)
        have hpage : pageOf a = argvBuf := (pageOf_eq_iff hal).mpr (by
          unfold argvRow maxArgLength at hx
          omega)
        exact hpage ▸ ha
      obtain ⟨h1, h2⟩ := ih hkeep (by omega) h
      have hnext : argvRow argvBuf (i + 1) = argvRow argvBuf i + maxArgLength := by
        unfold argvRow maxArgLength
        omega
      refine ⟨fun a ha => ?_, fun j hj hij x hx => ?_⟩
      · rw [h1 a (by omega)]
        exact hrow a (by omega)
      · rcases Nat.lt_or_eq_of_le hij with hlt | rfl
        · exact h2 j hj hlt x hx
        · rw [h1 _ (by omega)]
          have hw := write_inside (m := s.mem) (n := maxArgLength) (f := fun j => strs[i].getD j 0)
            (Nat.le_add_right (argvRow argvBuf i) x) (Nat.add_lt_add_left hx _)
          rwa [Nat.add_sub_cancel_left] at hw

end Kernel

/-! ## The new stack -/

namespace StackReady

theorem userReads (h : StackReady L k argvBuf) (hva : k.OnStack va) : k.UserReads va := by
  obtain ⟨pg, hl, -⟩ := h.leaf va hva
  have hlt : va < 2 ^ 38 := Nat.lt_of_lt_of_le hva.2 h.below
  have hu := translate_of_frame hl.frame hlt (user_of_userFrame hl.frame)
  have hr := translate_of_frame hl.frame hlt hl.readable
  rw [UserReads, Nat.mod_eq_of_lt (by omega), Machine.userAccess, if_pos (by rw [hu]; rfl), hr]
  rfl

/-- What `setup_user_arguments` makes of the rows. -/
theorem hasArgs (h : StackReady L k argvBuf) (h1 : 1 ≤ strs.length) (h8 : strs.length ≤ maxArgs)
    (hshort : ∀ i (hi : i < strs.length), strs[i].length < maxArgLength)
    (hrow : ∀ i (hi : i < strs.length), rowString k.phys.mem argvBuf i = strs[i])
    (hend : ∀ i < strs.length, ∃ j < maxArgLength, k.phys.mem (argvRow argvBuf i + j) = 0) :
    ∃ argv k', k.setupUserArguments L argvBuf strs.length k.gUserStackTop = .ok (argv, k') ∧ k.gUserStackBottom ≤ argv ∧
      k'.HasArgs argv strs ∧ k'.HasPtr (argv + 8 * strs.length) 0 := by
  obtain ⟨argv, q, k', hrun, -, hbot, hlast, hargs, hplace, -, hk', hmem⟩ := setupUserArguments_layout h h1 h8 hend
  obtain ⟨hready, -, -⟩ := h.setMem fun a ha => hmem a fun va hv1 hv2 => ha va ⟨Nat.le_trans hbot hv1, hv2⟩
  rw [← hk'] at hready
  have hreads : ∀ va, argv ≤ va → va < k.gUserStackTop → k'.UserReads va := fun va hv1 hv2 => by
    refine hready.userReads ?_
    rw [hk']
    exact ⟨Nat.le_trans hbot hv1, hv2⟩
  have hslots : argv + 8 * (strs.length + 1) ≤ k.gUserStackTop := by
    have := hplace 0 (by omega)
    omega
  refine ⟨argv, k', hrun, hbot, fun i hi => ⟨q i, ⟨fun x hx => hreads _ (by omega) (by omega), (hargs i hi).1⟩, ?_⟩,
    ⟨fun x hx => hreads _ (by omega) (by omega), hlast⟩⟩
  obtain ⟨-, -, hge, -, hstr, -⟩ := hargs i hi
  have hp := hplace i hi
  rw [hrow i hi] at hstr hp
  exact ⟨fun x hx => hreads _ (by omega) (by omega), hstr, hshort i hi⟩

end StackReady

/-! ## The call -/

namespace Kernel

/-- The strings of the caller are on the new stack. -/
theorem Argumented.hasArgs {kA kB : Kernel} {F₁ : List Nat} (hA : Argumented L k F c argvBuf argv argc kB kA F₁)
    (h : Running L k F c) (hargs : k.HasArgs argv strs) (hargc : argc = strs.length) (h1 : 1 < strs.length)
    (h8 : strs.length ≤ maxArgs) (hpush : kA.pushArgv L argvBuf argc = .ok (sp, argvPtr, k')) :
    argvPtr ≠ 0 ∧ k'.HasArgs argvPtr strs ∧ k'.HasPtr (argvPtr + 8 * strs.length) 0 := by
  obtain ⟨s, hal, hcopy⟩ := hA.copied
  unfold copyArgv at hcopy
  rw [if_pos (by omega), hargc, Int.toNat_natCast] at hcopy
  obtain ⟨F₃, hb⟩ := allocPages_one h.ok h.track hal
  have hspace : SpaceOk L k.phys F k.satp := h.active.symm ▸ h.spaceOk
  have hpage := hA.spare.page.aligned
  -- the rows
  obtain ⟨-, hrows⟩ := copyArgs_rows hspace hpage (fun hin => (hspace.page _ hin).2 hA.taken) hargs
    (Nat.le_trans h8 (by decide)) (fun a ha => hb.grows.mem a (hspace.page _ ha).2 id) (Nat.zero_add _) hcopy
  have hrowA : ∀ i (hi : i < strs.length), ∀ x < maxArgLength, kA.phys.mem (argvRow argvBuf i + x) = strs[i].getD x 0 := by
    intro i hi x hx
    have hin : pageOf (argvRow argvBuf i + x) = argvBuf := (pageOf_eq_iff hpage).mpr (by
      unfold maxArgs at h8
      unfold argvRow maxArgLength at *
      omega)
    rw [hA.rows _ hin, hrows i hi (Nat.zero_le _) x hx]
  have hshort : ∀ i (hi : i < strs.length), strs[i].length < maxArgLength := fun i hi =>
    have ⟨_, _, hstr⟩ := hargs i hi
    hstr.short
  have hend : ∀ i < strs.length, ∃ j < maxArgLength, kA.phys.mem (argvRow argvBuf i + j) = 0 := fun i hi =>
    ⟨strs[i].length, hshort i hi, by rw [hrowA i hi _ (hshort i hi), List.getD_eq_default _ _ (Nat.le_refl _)]⟩
  -- the stack
  obtain ⟨argv', k'', hrun, hbot, hargs', hlast⟩ := (hA.execed.stackReady hA.spare).hasArgs (by omega) h8 hshort
    (fun i hi => by
      obtain ⟨_, _, hstr⟩ := hargs i hi
      exact rowString_of_bytes hstr.short (loadStr_no_zero hstr.load) (hrowA i hi)) hend
  unfold pushArgv at hpush
  rw [if_pos (by omega), hargc, Int.toNat_natCast, hrun] at hpush
  simp only [ok_bind, Except.ok.injEq, Prod.mk.injEq] at hpush
  obtain ⟨rfl, rfl, rfl⟩ := hpush
  rw [hA.execed.valid.globals.stackBottom] at hbot
  exact ⟨by omega, hargs', hlast⟩

theorem Argued.kept (h : Argued k c strs) (hs : SpaceOk L k.phys F (k.procs c).pageTable) (hk : Kept k k' c) :
    Argued k' c strs :=
  h.congr hs hk.pageTable hk.argc hk.argvPtr hk.space

/-- `sys_exec` of a program that exists, with the arguments `strs`. -/
theorem Running.sysExec_argued (h : Running L k F c) (hfs : ∀ f ∈ fs, f.2.Linked)
    (hfound : k.tarfsLookup filename fs = .ok (some elf)) (hargs : k.HasArgs argv strs) (hargc : argc = strs.length)
    (h1 : 1 ≤ strs.length) (h8 : strs.length ≤ maxArgs) (hs : k.sysExec L fs filename argv argc = .ok (ret, k')) :
    (Argued k' c strs ↔ argc ≠ 1) ∧ k'.Live c := by
  obtain ⟨f, hf, rfl⟩ := tarfsLookup_mem hfound
  unfold sysExec at hs
  simp only [bind_eq_ok] at hs
  obtain ⟨buf, -, found, hfound', hs⟩ := hs
  obtain rfl := Except.ok.inj (hfound.symm.trans hfound')
  dsimp only at hs
  rw [execElf_eq] at hs
  simp only [bind_eq_ok, Prod.exists, Except.ok.injEq, Prod.mk.injEq] at hs
  obtain ⟨argvBuf, ep, sp, argvPtr, k₁, harg, -, rfl⟩ := hs
  obtain ⟨rfl, kB, kA, F₁, hA, hpush⟩ := execArguments_spec h.toValid h.current h.live (hfs f hf) harg
  obtain ⟨he₁, ⟨F₂, he₂⟩, hmem⟩ := hA.startProgram hpush
  have hself : (k₁.startProgram L ep argvBuf sp argvPtr argc).procs ep =
      { k₁.procs ep with argc := argc, argvPtr := argvPtr } := by
    unfold startProgram
    dsimp only
    rw [show (k₁.execFrame L ep argvBuf sp).cur = ep from cur_eq he₁.current, setProc_procs_self]
    rfl
  have hkept := yield_kept (L := L) he₂.live
  have hspace₁ : SpaceOk L k₁.phys F₁ k₁.satp := he₁.active.symm ▸ (he₁.valid.proc ep he₁.live).spaceOk he₁.pageTable
  have hspace₂ := (he₂.valid.proc ep he₂.live).spaceOk he₂.pageTable
  generalize k₁.startProgram L ep argvBuf sp argvPtr argc = k₂ at *
  refine ⟨⟨fun hargued he => hargued.argv ?_, fun hne => ?_⟩, hkept.live⟩
  · rw [hkept.argvPtr, hself]
    unfold pushArgv at hpush
    rw [if_neg (by omega)] at hpush
    simp only [Except.ok.injEq, Prod.mk.injEq] at hpush
    exact hpush.2.1.symm
  · obtain ⟨hptr, hargs', hlast⟩ := hA.hasArgs h hargs hargc (by omega) h8 hpush
    have hr : Reads k₁ (k₂.inSpaceOf ep) := reads_of_space hspace₁ (by rw [inSpaceOf, hself, he₁.active]) fun a ha =>
      hmem a (he₁.active ▸ ha)
    have hargued : Argued k₂ ep strs := by
      refine ⟨by rw [hself, hargc], by rw [hself]; exact hptr, ?_, ?_⟩ <;> rw [hself]
      · exact hargs'.reads_in hr
      · exact hlast.reads_in hr
    exact hargued.kept hspace₂ hkept

end Kernel

/-! ## The trap -/

namespace Machine

/-- A trap that makes a `sys_exec`. -/
theorem Step.exec_handled (hr : Running L s.kernel F c) (h : s.Step L fs t s₁)
    (hreq : t.request = some (.exec filename argv argc)) :
    ∃ ret k', (s.inKernel L t).sysExec L fs filename argv argc = .ok (ret, k') ∧
      (s₁.kernel = k' ∨ ∃ a0, ret = .value a0 ∧ s₁.kernel = setResult L k' c a0) := by
  obtain ⟨hruns, htrap⟩ := h
  obtain ⟨hcause, hcall⟩ := Trap.request_ecall hreq
  unfold trap at htrap
  simp only [hcause, hcall, Kernel.handleSyscall, bind_eq_ok, Prod.exists, Except.ok.injEq, Prod.mk.injEq, hr.cur] at htrap
  obtain ⟨ret, k', input, ⟨ret', k'', hexec, rfl, rfl, rfl⟩, htrap⟩ := htrap
  refine ⟨ret', k'', hexec, ?_⟩
  cases ret' with
  | value a0 =>
      simp only [Except.ok.injEq] at htrap
      exact .inr ⟨a0, rfl, by rw [← htrap]; rfl⟩
  | switched =>
      simp only [Except.ok.injEq] at htrap
      exact .inl (by rw [← htrap]; rfl)

/-- The result of a call goes to the trap frame, and the arguments stay. -/
theorem argued_setResult {a0 : Nat} (hr : Running L k F c) : (setResult L k c a0).Argued c strs ↔ k.Argued c strs := by
  have hr' := hr.setResult a0
  have hlow : ∀ a, L.freeRam ≤ pageOf a → (setResult L k c a0).phys.mem a = k.phys.mem a := fun a ha =>
    store64_outside fun hx => by
      have h1 := tfStackFrame_lt L c
      have h2 := pageOf_lt (L := L) (a := a) (by
        unfold tfA0 at hx
        unfold frameSize at h1
        omega)
      omega
  exact ⟨fun h => h.congr hr'.spaceOk rfl rfl rfl fun a ha => (hlow a (hr'.spaceOk.page _ ha).1.ge).symm,
    fun h => h.congr hr.spaceOk rfl rfl rfl fun a ha => hlow a (hr.spaceOk.page _ ha).1.ge⟩

theorem Step.argued_iff (hfs : ∀ f ∈ fs, f.2.Linked) (hr : Running L s.kernel F c) (h : s.Step L fs t s₁)
    (hreq : t.request = some (.exec filename argv argc))
    (hfound : (s.inKernel L t).tarfsLookup filename fs = .ok (some elf)) (hargs : (s.inKernel L t).HasArgs argv strs)
    (hargc : argc = strs.length) (h1 : 1 ≤ strs.length) (h8 : strs.length ≤ maxArgs) :
    (s₁.kernel.Argued c strs ↔ argc ≠ 1) ∧ s₁.kernel.Live c := by
  have hk := h.1.inKernel hr
  obtain ⟨ret, k', hexec, hcase⟩ := h.exec_handled hr hreq
  obtain ⟨hiff, hl⟩ := hk.sysExec_argued hfs hfound hargs hargc h1 h8 hexec
  rcases hcase with he | ⟨a0, rfl, he⟩ <;> rw [he]
  · exact ⟨hiff, hl⟩
  · obtain ⟨F', c', hr', hval⟩ := (hk.sysExec_served hfs hexec).running
    obtain rfl := hval a0 rfl
    exact ⟨(argued_setResult hr').trans hiff, hl⟩

end Machine

namespace HasCode

variable {bytes : Mem} {x : Nat} (h : HasCode k c bytes) (hr : Running L k F c)
include h hr

/-- The process may read its first page. -/
theorem userReads (hx : x < 4096) : k.UserReads (userBase + x) := by
  obtain ⟨pg, -, -, ht⟩ := h.page hr
  have hmod : (userBase + x) % 2 ^ 64 = userBase + x := Nat.mod_eq_of_lt (by unfold userBase; omega)
  rw [UserReads, hmod, Machine.userAccess, ht x hx pteU (by simp), ht x hx pteR (by simp)]
  rfl

theorem hasPtr (hx : x + 8 ≤ 4096) (hp : p < 2 ^ 64) (hbytes : ∀ j < 8, bytes (x + j) = byteOf p j) :
    k.HasPtr (userBase + x) p := by
  refine ⟨fun j hj => ?_, loadU64_of_bytes hp fun j hj => ?_⟩ <;> rw [Nat.add_assoc]
  · exact h.userReads hr (by omega)
  · rw [h.loadU8 hr (by omega), hbytes j hj]

theorem hasString (hx : x + str.length < 4096)
    (hbytes : ∀ j (hj : j < (str ++ [0]).length), bytes (x + j) = (str ++ [0])[j]) (h0 : 0 ∉ str)
    (hn : str.length < maxArgLength) : k.HasString (userBase + x) str := by
  refine ⟨fun j hj => ?_, loadStr_of_bytes (fun j hj => ?_) h0 hn, hn⟩ <;> rw [Nat.add_assoc]
  · exact h.userReads hr (by omega)
  · rw [← hbytes j hj]
    rw [List.length_append, List.length_singleton] at hj
    exact h.loadU8 hr (by omega)

end HasCode

namespace Machine

/-- Behind the name of its program, the shell has an array of one pointer to it. -/
def nameArgs : List UInt8 := List.replicate 6 0 ++ (List.range 8).map (byteOf dataVa)

theorem hasArgs_name (h : HasCode k c (program (shellName ++ 0 :: nameArgs))) (hr : Running L k F c) :
    k.HasArgs (dataVa + 16) [shellName] := by
  intro i hi
  obtain rfl : i = 0 := by simpa using hi
  have hptr : k.HasPtr (userBase + 80) dataVa := h.hasPtr hr (by decide) (by decide) (by decide)
  have hname : k.HasString (userBase + 64) shellName := h.hasString hr (by decide) (by decide) (by decide) (by decide)
  exact ⟨dataVa, hptr, hname⟩

/-- The shell loads its program again, and passes its name on. -/
theorem exists_execName : ∃ (s s₁ : Machine) (t : Trap), s.Start Layout.kernelMap tinyFs ∧
    s.Step Layout.kernelMap tinyFs t s₁ ∧ t.request = some (.exec dataVa (dataVa + 16) 1) ∧
      (s.inKernel Layout.kernelMap t).tarfsLookup dataVa tinyFs = .ok (some tinyElf) ∧
        (s.inKernel Layout.kernelMap t).HasArgs (dataVa + 16) [shellName] := by
  obtain ⟨s, F, hstart, -, hfree, hboot, hroom⟩ := exists_shell Layout.kernelMap []
  obtain ⟨t, s₁, hs, hcause, hframe, hr, hcode, hfile, -⟩ := hfree.exec (hboot.heap 1 hboot.live_shell)
    (Nat.le_trans (by decide) hroom) nameArgs (dataVa + 16) (Nat.le_refl 1) rfl
  refine ⟨s, s₁, t, hstart, hs, ?_, hfile, hasArgs_name hcode hr⟩
  rw [Trap.request, hcause, hframe]
  rfl

end Machine

end RiscvOs
