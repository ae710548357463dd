import RiscvOs.Lemmas.Boot

/-!
# Calls that succeed

With room for their pages, the start of the system, `sys_fork` and the release of a process succeed.
-/

namespace RiscvOs

open ByteMem Outcome Kernel

variable {L : Layout} {k k' : Kernel} {F F' : List Nat} {i c : Fin procsMax} {m : Mem} {s s' : Phys}
  {pg o : Nat} {p : Proc} {elf : Elf} {fs : Initramfs} {ret : SysRet}

namespace Kernel

theorem pagingInit_total (hs : AllocOk L k.phys F) (ht : TrackOk L k.phys F) (hr : 515 ≤ k.phys.room L) :
    ∃ k', k.pagingInit L = .ok k' ∧ k.phys.room L ≤ k'.phys.room L + 515 := by
  obtain ⟨pt, s₁, h1, hr1⟩ := hs.allocPages_room (o := k.owner) (by omega)
  obtain ⟨F₁, hb⟩ := allocPages_one hs ht h1
  have hp := hs.isPage hb.was_one
  have hend := L.ram_le
  have hbase := L.kernelBase_lt_freeRam
  have hpages : kernelBase + Phys.pagesUpTo kernelBase L.heapEnd * 4096 ≤ 0xA0000000 := by
    have := L.freeRam_aligned
    unfold Phys.pagesUpTo Layout.heapEnd Layout.freeRamEnd
    rw [if_neg (by omega)]
    unfold kernelBase at *
    omega
  have htabs : TablesOk L s₁ F₁ pt := .of_zero hp hb.not_avail (hb.zero hp)
  have hslack := Phys.room_le_slack L s₁ pt
  obtain ⟨s₂, h2, hr2⟩ : ∃ s₂, s₁.mapRange L k.owner pt kernelBase kernelBase (pteV ||| pteRWX)
      (Phys.pagesUpTo kernelBase L.heapEnd) = .ok s₂ ∧ s₁.slack L pt ≤ s₂.slack L pt :=
    mapRange_slack hb.grows.ok hb.grows.track htabs (by decide) (by decide)
      (fun i hi => .inr (by unfold kernelBase at *; omega)) (by omega) (by decide) (by omega)
  obtain ⟨F₂, hm⟩ := mapRange_spec hb.grows.ok hb.grows.track htabs (by omega) (by decide) h2
  obtain ⟨s₃, h3, hr3⟩ : ∃ s₃, s₂.mapRange L k.owner pt 0x10001000 0x10001000 (pteV ||| pteR ||| pteW) 8 =
      .ok s₃ ∧ s₂.slack L pt ≤ s₃.slack L pt :=
    mapRange_slack hm.grows.ok hm.grows.track hm.tables (by decide) (by decide)
      (fun i hi => .inl (by omega)) (by decide) (by decide) (by omega)
  refine ⟨{ k with phys := s₃, kernelPagetable := pt, satp := pt }, ?_, ?_⟩
  · simp only [pagingInit, bind_eq_ok, Prod.exists]
    exact ⟨_, _, h1, _, h2, _, h3, rfl⟩
  · have := Phys.slack_le_room L s₃ pt
    show _ ≤ s₃.room L + 515
    omega

/-- A program whose image is one page. -/
structure Tiny (elf : Elf) : Prop extends elf.Linked where
  size : elf.imageSize = 4096

theorem loadImage_total (hs : AllocOk L k.phys F) (he : Tiny elf) (hr : 1 ≤ k.phys.room L) :
    ∃ flat k', k.loadImage L elf = .ok (flat, k') ∧ k'.phys.room L + 1 = k.phys.room L := by
  obtain ⟨flat, s, h1, hr1⟩ := hs.allocPages_room (o := k.owner) hr
  refine ⟨flat, { k with
    phys := { s with mem := elf.copySegments (memset s.mem flat 0 elf.imageSize) flat }
    gUserStackTop := 0x1020000, gUserStackBottom := 0x1010000
    gUserHeapStart := 0x3000000, gUserHeapEnd := 0x3020000 }, ?_, hr1⟩
  unfold loadImage
  rw [if_neg (not_not.mpr he.magic), he.stackTop, he.stackBottom, he.heapStart, he.heapEnd]
  simp only [bind_eq_ok, ok_bind, Prod.exists]
  exact ⟨_, _, by rw [he.size]; exact h1, rfl⟩

/-- The pages that a first process takes. -/
theorem create_total (hs : AllocOk L k.phys F) (ht : TrackOk L k.phys F) (he : Tiny elf)
    (hc : k.freeSlot ≠ none) (hr : 536 ≤ k.phys.room L) :
    ∃ i k', k.extractFlatBinaryFromElf L elf true = .ok (i, k') ∧
      k.phys.room L ≤ k'.phys.room L + 535 := by
  obtain ⟨flat, k₁, h1, hr1⟩ := loadImage_total hs he (by omega)
  obtain ⟨F₁, hi⟩ := loadImage_spec hs ht he.toLinked h1
  have hslot : k₁.freeSlot = k.freeSlot := by
    unfold freeSlot
    rw [hi.state]
  obtain ⟨i, hi'⟩ := Option.ne_none_iff_exists'.mp hc
  have hf := initFrame_grows (o := k₁.owner) (i := i) hi.grows.ok hi.grows.track
  obtain ⟨pt, s, h2, hr2⟩ : ∃ pt s, (k₁.initFrame L i).phys.buildSpace L k₁.owner flat elf.imageSize
      k₁.gUserStackTop k₁.gUserStackBottom k₁.gUserHeapStart = .ok (pt, s) ∧
        (k₁.initFrame L i).phys.room L ≤ s.room L + 516 + (elf.imageSize + 4095) / 4096 +
          ((k₁.gUserStackTop - k₁.gUserStackBottom) / 4096 + 1) := by
    have hroom : (k₁.initFrame L i).phys.room L = k₁.phys.room L := rfl
    refine buildSpace_slack hf.ok hf.track ?_ ?_ ?_ ?_ ?_ ?_ <;>
      simp only [he.size, hi.globals.stackTop, hi.globals.stackBottom, hi.globals.heapStart, hroom] <;>
      first | decide | omega
  simp only [he.size, hi.globals.stackTop, hi.globals.stackBottom] at hr2
  have hroom : (k₁.initFrame L i).phys.room L = k₁.phys.room L := rfl
  suffices h : ∃ r, k.extractFlatBinaryFromElf L elf true = .ok r ∧ r.2.phys = s by
    obtain ⟨⟨j, k'⟩, h, he⟩ := h
    refine ⟨j, k', h, ?_⟩
    rw [show k'.phys = s from he]
    omega
  have hnew : ∃ r, k₁.createInitProcess L flat elf.imageSize = .ok r ∧ r.2.phys = s := by
    unfold createInitProcess
    rw [hslot, hi']
    exact ⟨_, bind_eq_ok.mpr ⟨(pt, s), h2, rfl⟩, rfl⟩
  obtain ⟨r, hr, hphys⟩ := hnew
  refine ⟨r, ?_, hphys⟩
  simp only [extractFlatBinaryFromElf, bind_eq_ok, Prod.exists, if_true]
  exact ⟨flat, k₁, h1, hr⟩

/-- The system starts with programs of one page. -/
theorem kernelMain_total {elf' : Elf} (h1 : fs.find idleName = some elf) (h2 : fs.find shellName = some elf')
    (he : Tiny elf) (he' : Tiny elf') : ∃ k, kernelMain L fs m = .ok k ∧ 14799 ≤ k.phys.room L := by
  have hroom : (reset L m).phys.room L = 16384 := by
    simp only [reset, Phys.room, Layout.freeRamEnd]
    omega
  have hs0 : AllocOk L (reset L m).phys [] := .boot L m
  have ht0 : TrackOk L (reset L m).phys [] := .boot L m
  obtain ⟨k₀, hk0, hr0⟩ := pagingInit_total hs0 ht0 (by omega)
  obtain ⟨F₀, hg0, hst0⟩ := pagingInit_spec hs0 ht0 hk0
  have hdead : ∀ i, ¬k₀.Live i := fun i hl => hl (by rw [hst0]; rfl)
  obtain ⟨i, k₁, hk1, hr1⟩ := create_total hg0.ok hg0.track he (by rw [freeSlot_reset hdead]; simp) (by omega)
  obtain ⟨F₁, hi⟩ := makeIdle_spec hk0 he.toLinked hk1
  have hslot : (k₁.makeIdle i).freeSlot ≠ none := by
    have h1 : ((k₁.makeIdle i).procs 1).state = .unused := by
      rw [hi.procs]
      rfl
    simp [freeSlot, List.finRange_succ, hi.state, h1]
  have hroom1 : (k₁.makeIdle i).phys.room L = k₁.phys.room L := rfl
  obtain ⟨j, k₂, hk2, hr2⟩ := create_total hi.inv.ok hi.inv.track he' hslot (by omega)
  have hok : kernelMain L fs m = .ok ((k₂.setName j (shellName.take 5)).yield L).1 := by
    unfold kernelMain
    rw [hk0, ok_bind, h1]
    simp only [bind_eq_ok, Prod.exists]
    refine ⟨i, k₁, hk1, ?_⟩
    rw [h2]
    simp only [bind_eq_ok, Prod.exists]
    exact ⟨j, k₂, hk2, rfl⟩
  refine ⟨_, hok, ?_⟩
  rw [yield_phys]
  show 14799 ≤ k₂.phys.room L
  omega

/-! ## `sys_fork` -/

/-- The number of pages that `sys_fork` copies. -/
def copyCount (k : Kernel) : Nat :=
  loopCount (forkSource (k.procs k.cur).pageTable k.phys.mem) userBase
    (Phys.pagesUpTo userBase (max (k.procs k.cur).heapEnd (k.procs k.cur).userStackTop))

theorem sysFork_total (hk : k.Inv L F) (hl : k.Live k.cur) (hpt : (k.procs k.cur).pageTable ≠ 0)
    (hc : k.freeSlot = some c) (htop : max (k.procs k.cur).heapEnd (k.procs k.cur).userStackTop ≤ 0x10000000)
    (hr : 518 + k.copyCount ≤ k.phys.room L) :
    ∃ k', k.sysFork L = .ok (.value (c + 1), k') ∧ k.phys.room L ≤ k'.phys.room L + 516 + k.copyCount := by
  have hg0 : Grows L k.owner k.phys F (k.forkStack L c) F (TfPages L k k.cur) := forkStack_grows hk
  have hroom0 : (k.forkStack L c).room L = k.phys.room L := rfl
  obtain ⟨tf, s₁, h1, hr1⟩ := hg0.ok.allocPages_room (o := k.owner) (by omega)
  obtain ⟨F₁, hb⟩ := allocPages_one hg0.ok hg0.track h1
  have htf := hg0.avail _ hb.was_one
  have hg1 := hg0.trans hb.grows fun _ h => h.elim
  have hg2 := forkFrames_grows (c + 1) hk hl hg1 htf hb.not_avail
  have hroom2 : Phys.room L { s₁ with mem := forkFrames s₁.mem (k.procs k.cur).tf tf (c + 1) } = s₁.room L := rfl
  obtain ⟨root, s₂, s₃, h2, h3, hr3⟩ := identity_slack (o := k.owner) hg2.ok hg2.track (by omega)
  obtain ⟨F₂, hb2⟩ := allocPages_one hg2.ok hg2.track h2
  obtain ⟨F₃, hn, _⟩ := NewSpace.identity hb2 hg2.ok h3
  have hgrow : ∀ t Ft, Grows L k.owner s₃ F₃ t Ft (IsTable s₃.mem root) →
      Grows L k.owner k.phys F t Ft (TfPages L k k.cur) := fun t Ft ht =>
    (hg2.trans hn.grows fun _ h => h.elim).trans ht fun pg hpg => .inr (hg2.avail _ (hn.new pg hpg.inSpace))
  have he := Extend.refl (o := k.owner) (C := fun _ _ _ => True) hn.grows.ok hn.grows.track hn.space
  have hrounds : userBase + 4096 *
      Phys.pagesUpTo userBase (max (k.procs k.cur).heapEnd (k.procs k.cur).userStackTop) ≤ 0x10001000 := by
    unfold Phys.pagesUpTo userBase
    rw [if_neg (by omega)]
    omega
  have hcount : loopCount (forkSource (k.procs k.cur).pageTable k.phys.mem) userBase
    (Phys.pagesUpTo userBase (max (k.procs k.cur).heapEnd (k.procs k.cur).userStackTop)) = k.copyCount := rfl
  obtain ⟨s₄, h4, hr4⟩ : ∃ s₄, s₃.mapLoop L k.owner root (pteV ||| pteU ||| pteRWX)
      (forkSource (k.procs k.cur).pageTable) userBase
      (Phys.pagesUpTo userBase (max (k.procs k.cur).heapEnd (k.procs k.cur).userStackTop)) = .ok s₄ ∧
        s₃.slack L root ≤ s₄.slack L root + k.copyCount := by
    refine he.mapLoop_slack (by decide) (by decide) (by decide) (by decide) (fun i hi => .inl ?_)
      (fun t Ft ht i _ => forkSource_congr (hk.leafAt_grows hl hpt (hgrow t Ft ht)) _)
      (fun i _ a n ha => (forkSource_eq_some ha).1.le) (by omega)
    unfold userBase at *
    omega
  have hslack := Phys.slack_le_room L s₄ root
  refine ⟨{ k with phys := s₄, processCount := k.processCount + 1 }.setProc c (k.forkChild c tf root), ?_, ?_⟩
  · rw [sysFork_eq hc hl]
    simp only [bind_eq_ok, Prod.exists]
    exact ⟨_, _, h1, _, _, h2, _, h3, _, h4, rfl⟩
  · show k.phys.room L ≤ s₄.room L + 516 + k.copyCount
    omega

/-- A process with the pages of a first process and none besides. -/
structure Initial (k : Kernel) (i : Fin procsMax) : Prop where
  heap : (k.procs i).heapEnd = 0x3001000
  top : (k.procs i).userStackTop = 0x1020000
  user : ∀ v pg, userFrame (leafAt k.phys.mem (k.procs i).pageTable v) = some pg → InitPage v

theorem Booted.initial (hb : Booted L k F) (hl : k.Live i) : k.Initial i :=
  ⟨hb.heap i hl, hb.top i hl, hb.user i hl⟩

theorem Booted.cur (hb : Booted L k F) : k.cur = 1 := cur_eq hb.current

theorem Booted.live_shell (hb : Booted L k F) : k.Live 1 := by
  rw [Live, hb.shellState]
  decide

theorem Booted.live_iff (hb : Booted L k F) : k.Live i ↔ i = 0 ∨ i = 1 := by
  constructor
  · intro hl
    by_contra hne
    rw [not_or] at hne
    refine hl ?_
    rw [hb.procs, Function.update_of_ne hne.2, Function.update_of_ne hne.1]
  · rintro (rfl | rfl)
    · exact hb.idle.1
    · exact hb.live_shell

/-- The first free slot after boot. -/
theorem Booted.freeSlot (hb : Booted L k F) : k.freeSlot = some 2 := by
  have h2 : (k.procs 2).state = .unused := by simpa [Live] using (hb.live_iff (i := 2)).not.mpr (by decide)
  simp [Kernel.freeSlot, List.finRange_succ, hb.idleState, hb.shellState, h2]

theorem copyCount_le (hk : k.Inv L F) (hl : k.Live k.cur) (hpt : (k.procs k.cur).pageTable ≠ 0)
    (hi : k.Initial k.cur) : k.copyCount ≤ 2049 := by
  have hle : k.copyCount ≤ (insert 0x2000 (Finset.range 2048)).card := by
    refine loopCount_le fun j hj hs => ?_
    obtain ⟨⟨a, n⟩, ha⟩ := Option.isSome_iff_exists.mp hs
    have hva : userBase + 4096 * j < 0x3001000 := by
      rw [hi.heap, hi.top] at hj
      unfold Phys.pagesUpTo userBase at *
      rw [if_neg (by decide)] at hj
      omega
    have hv : pteHas (leafAt k.phys.mem (k.procs k.cur).pageTable (vpn (userBase + 4096 * j))) pteV := by
      have hnext := (forkSource_eq_some ha).2
      rw [pteNext, Option.ite_none_right_eq_some] at hnext
      exact hnext.1
    have hb : BelowKernel (vpn (userBase + 4096 * j)) := ⟨_, by unfold kernelBase; omega, rfl⟩
    obtain ⟨pg, hleaf⟩ := ((hk.proc _ hl).map hpt).below hb hv
    rw [Finset.mem_insert, Finset.mem_range]
    rcases hi.user _ pg hleaf.frame with ⟨x, hx, he⟩ | ⟨x, hx, he⟩ | he <;> rw [vpn_eq_iff] at he <;>
      unfold userBase at * <;> omega
  refine hle.trans ?_
  rw [Finset.card_insert_of_notMem (by simp), Finset.card_range]

/-- A process of that size can be forked. -/
theorem Initial.fork_total (hi : k.Initial k.cur) (hk : k.Inv L F) (hl : k.Live k.cur)
    (hpt : (k.procs k.cur).pageTable ≠ 0) (hc : k.freeSlot = some c) (hr : 2567 ≤ k.phys.room L) :
    ∃ k', k.sysFork L = .ok (.value (c + 1), k') ∧ k.phys.room L ≤ k'.phys.room L + 2565 := by
  have hle := copyCount_le hk hl hpt hi
  obtain ⟨k', hok, hr'⟩ := sysFork_total (L := L) hk hl hpt hc (by rw [hi.heap, hi.top]; decide) (by omega)
  exact ⟨k', hok, by omega⟩

/-- And so can its child. -/
theorem Forked.initial {tf root : Nat} (h : Forked L k F c tf root k' F') (hk : k.Inv L F)
    (hl : k.Live k.cur) (hpt : (k.procs k.cur).pageTable ≠ 0) (hi : k.Initial k.cur) : k'.Initial c := by
  have hp : k'.procs c = k.forkChild c tf root := by
    rw [h.state]
    exact setProc_procs_self
  refine ⟨by rw [hp]; exact hi.heap, by rw [hp]; exact hi.top, fun v pg hv => ?_⟩
  rw [hp] at hv
  have hcopy : k.CopyPage v := by
    by_contra hne
    rw [show (k.forkChild c tf root).pageTable = root from rfl, h.rest v hne] at hv
    cases hv
  obtain ⟨j, hj, rfl, hs⟩ := hcopy
  obtain ⟨⟨a, n⟩, ha⟩ := Option.isSome_iff_exists.mp hs
  have hnext := (forkSource_eq_some ha).2
  rw [pteNext, Option.ite_none_right_eq_some] at hnext
  have hva : userBase + 4096 * j < 0x3001000 := by
    rw [hi.heap, hi.top] at hj
    unfold Phys.pagesUpTo userBase at *
    rw [if_neg (by decide)] at hj
    omega
  obtain ⟨fr, hleaf⟩ := ((hk.proc _ hl).map hpt).below ⟨_, by unfold kernelBase; omega, rfl⟩ hnext.1
  exact hi.user _ fr hleaf.frame

/-! ## `sys_exec` -/

theorem processFree_total (hk : k.Inv L F) (hl : k.Live c) (hpt : (k.procs c).pageTable ≠ 0) {n : Nat}
    (hn : k.freeRounds c = .ok n) :
    ∃ k', k.processFreeUserspace c = .ok k' ∧ k.phys.room L ≤ k'.phys.room L := by
  have hp := hk.proc c hl
  obtain ⟨t₁, t₂, F', ht1, ht2, hf⟩ := freeSpace_spec hk.ok hk.track (hp.spaceOk hpt)
    (fun v hv => (hp.map hpt).rwx hv) n
  refine ⟨_, by rw [processFreeUserspace_eq hpt, hn, ok_bind, ht1, ok_bind, ht2, ok_bind], ?_⟩
  exact hf.room_le hk.ok

/-- The pages that a new program takes. -/
theorem load_total (hs : AllocOk L k.phys F) (ht : TrackOk L k.phys F) (he : Tiny elf)
    (hr : 536 ≤ k.phys.room L) : ∃ i k', k.extractFlatBinaryFromElf L elf false = .ok (i, k') := by
  obtain ⟨flat, k₁, h1, hr1⟩ := loadImage_total hs he (by omega)
  obtain ⟨F₁, hi⟩ := loadImage_spec hs ht he.toLinked h1
  obtain ⟨pt, s, h2, -⟩ : ∃ pt s, k₁.phys.buildSpace L k₁.owner flat elf.imageSize
      k₁.gUserStackTop k₁.gUserStackBottom k₁.gUserHeapStart = .ok (pt, s) ∧
        k₁.phys.room L ≤ s.room L + 516 + (elf.imageSize + 4095) / 4096 +
          ((k₁.gUserStackTop - k₁.gUserStackBottom) / 4096 + 1) := by
    refine buildSpace_slack hi.grows.ok hi.grows.track ?_ ?_ ?_ ?_ ?_ ?_ <;>
      simp only [he.size, hi.globals.stackTop, hi.globals.stackBottom, hi.globals.heapStart] <;>
      first | decide | omega
  simp only [extractFlatBinaryFromElf, execProcess, bind_eq_ok, Prod.exists, Bool.false_eq_true, if_false]
  exact ⟨_, _, flat, k₁, h1, pt, s, h2, rfl⟩

/-- With room for a program of one page, `sys_exec` without arguments succeeds. -/
theorem execElf_total {buf : List UInt8} {argv n : Nat} {argc : Int} (hk : k.Valid L F)
    (hc : k.currentProc = some c) (hl : k.Live c) (he : Tiny elf) (hn : k.freeRounds c = .ok n)
    (hargc : argc ≤ 1) (hr : 537 ≤ k.phys.room L) : ∃ r, k.execElf L elf buf argv argc = .ok r := by
  obtain ⟨argvBuf, s, hal, hr1⟩ := hk.ok.allocPages_room (o := k.owner) (by omega)
  have hcopy : copyArgv { k with phys := s } argvBuf argv argc = .ok { k with phys := s } :=
    if_neg (by omega)
  obtain ⟨F₁, hi1, _⟩ := argvBuf_spec (c := c) hk.toInv hal (by omega) hcopy
  obtain ⟨kB, hB⟩ : ∃ kB : Kernel, kB = { k with phys := s, satp := k.kernelPagetable } := ⟨_, rfl⟩
  have hpB : kB.procs = k.procs := by rw [hB]
  have hphysB : kB.phys = s := by rw [hB]
  have hiB : kB.Inv L F₁ := hi1.relabel hphysB fun i => by
    rw [hpB]
    exact .refl _
  have hcur : kB.cur = c := cur_eq (by rw [hB]; exact hc)
  have hlB : kB.Live c := by
    rw [Live, hpB]
    exact hl
  have hptB : (kB.procs c).pageTable ≠ 0 := by
    rw [hpB]
    exact hk.full c hl
  obtain ⟨k₂, h2, hr2⟩ := processFree_total (n := n) hiB hlB hptB (by rw [hB]; exact hn)
  obtain ⟨F₂, hi2, -, -⟩ := processFree_spec hiB hlB hptB h2
  rw [hphysB] at hr2
  obtain ⟨i, k₃, h3⟩ := load_total hi2.ok hi2.track he (by omega)
  have hpush : ∀ k : Kernel, k.pushArgv L argvBuf argc = .ok (k.gUserStackTop, 0, k) := fun _ =>
    if_neg (by omega)
  unfold execElf
  simp only [bind_eq_ok, Prod.exists]
  refine ⟨_, _, argvBuf, s, hal, _, hcopy, k₂, ?_, i, k₃, h3, _, _, _, hpush _, rfl⟩
  rw [← hcur, hB] at h2
  exact h2

end Kernel

/-- The smallest program that `user.ld` links: one page of zeros. -/
def tinyElf : Elf where
  eMagic := elfMagic
  phdrs := [{ pType := ptLoad, pOffset := 0, pVaddr := userBase, pFilesz := 0, pMemsz := 1 }]
  symtab := some [("__user_stack_top", 0x1020000), ("__user_stack_bottom", 0x1010000),
    ("__user_heap_start", 0x3000000), ("__user_heap_end", 0x3020000)]
  data := fun _ => 0

def tinyFs : Initramfs := [(idleName, tinyElf), (shellName, tinyElf)]

theorem tiny_tinyElf : Kernel.Tiny tinyElf where
  magic := rfl
  stackTop := rfl
  stackBottom := rfl
  heapStart := rfl
  heapEnd := rfl
  nonempty := ⟨_, List.mem_singleton.mpr rfl, Nat.one_pos⟩
  segments := by decide
  size := by decide

theorem tinyFs_linked : ∀ f ∈ tinyFs, f.2.Linked := by
  intro f hf
  have : f.2 = tinyElf := by
    simp only [tinyFs, List.mem_cons, List.not_mem_nil, or_false] at hf
    rcases hf with rfl | rfl <;> rfl
  rw [this]
  exact tiny_tinyElf.toLinked

theorem tinyFs_blank : ∀ f ∈ tinyFs, f.2.Blank := by
  intro f hf p hp
  simp only [tinyFs, List.mem_cons, List.not_mem_nil, or_false] at hf
  rcases hf with rfl | rfl <;> simp [tinyElf, Elf.loads, ptLoad] at hp <;> rw [hp]

/-- A booted system with room for more processes. The program of the shell is a page of zeros. -/
theorem exists_booted (L : Layout) (m : Mem) :
    ∃ k F, kernelMain L tinyFs m = .ok k ∧ Booted L k F ∧ 14799 ≤ k.phys.room L ∧
      BlankPage k.phys.mem (k.procs 1).pageTable := by
  obtain ⟨k, hk, hr⟩ : ∃ k, kernelMain L tinyFs m = .ok k ∧ 14799 ≤ k.phys.room L :=
    Kernel.kernelMain_total rfl rfl tiny_tinyElf tiny_tinyElf
  obtain ⟨F, hb, hblank⟩ := Kernel.kernelMain_booted tinyFs_linked hk
  exact ⟨k, F, hk, hb, hr, hblank tinyFs_blank⟩

end RiscvOs
