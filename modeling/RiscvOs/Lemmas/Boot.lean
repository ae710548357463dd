import RiscvOs.Theorems.PageMap

/-!
# Boot

`kernel_main` ends, if it does not panic, in a well-formed state with two processes, idle and the shell.
-/

namespace RiscvOs

open ByteMem Outcome Kernel

variable {L : Layout} {k k' : Kernel} {F F' : List Nat} {i c : Fin procsMax} {m : Mem} {s s' : Phys}
  {pg o : Nat} {p : Proc} {elf : Elf} {fs : Initramfs}

namespace Kernel

/-- Without a live process only the allocator matters. -/
theorem Inv.of_dead (hs : AllocOk L k.phys F) (ht : TrackOk L k.phys F) (h : ∀ i, ¬k.Live i) : k.Inv L F :=
  ⟨hs, ht, fun i hl => absurd hl (h i), fun i _ _ _ _ hi => absurd hi.1 (h i)⟩

/-- The kernel's own page table. -/
theorem pagingInit_spec (hs : AllocOk L k.phys F) (ht : TrackOk L k.phys F) (h : k.pagingInit L = .ok k') :
    ∃ F', Grows L k.owner k.phys F k'.phys F' (fun _ => False) ∧
      k' = { k with phys := k'.phys, kernelPagetable := k'.kernelPagetable, satp := k'.satp } := by
  unfold pagingInit at h
  simp only [bind_eq_ok, Prod.exists, Except.ok.injEq] at h
  obtain ⟨pt, s₁, h1, s₂, h2, s₃, h3, rfl⟩ := h
  obtain ⟨F₁, hb⟩ := allocPages_one hs ht h1
  have hp := hs.isPage hb.was_one
  have hz := hb.zero hp
  have hend := L.ram_le
  have hbase := L.kernelBase_lt_freeRam
  have hpages : kernelBase + Phys.pagesUpTo kernelBase L.heapEnd * 4096 ≤ 2 ^ 56 := by
    unfold Phys.pagesUpTo Layout.heapEnd Layout.freeRamEnd
    rw [if_neg (by omega)]
    unfold kernelBase at *
    omega
  obtain ⟨F₂, hr⟩ := mapRange_spec hb.grows.ok hb.grows.track (.of_zero hp hb.not_avail hz) hpages (by decide) h2
  obtain ⟨F₃, hr'⟩ := mapRange_spec hr.grows.ok hr.grows.track hr.tables (by decide) (by decide) h3
  have hnew : ∀ pg, IsTable s₂.mem pt pg → Avail L k.phys F pg := by
    rintro pg ⟨q, hq⟩
    rcases hr.new q pg hq with hq | hav
    · obtain ⟨_, rfl⟩ := tableAt_of_zero hp hz hq
      exact hb.was_one
    · exact hb.grows.avail pg hav
  have hg1 := hb.grows.trans hr.grows (by
    rintro pg ⟨q, hq⟩
    obtain ⟨_, rfl⟩ := tableAt_of_zero hp hz hq
    exact .inr hb.was_one)
  exact ⟨F₃, hg1.trans hr'.grows fun pg hpg => .inr (hnew pg hpg), rfl⟩

/-- The record of a first process. -/
def initRecord (L : Layout) (k : Kernel) (i : Fin procsMax) (pt flat n : Nat) : Proc :=
  { k.procs i with
    tf := L.tfStackFrame i, sp := L.tfStackFrame i
    parent := match k.currentProc with
      | some c => some c
      | none => (k.procs i).parent
    parentPid := match k.currentProc with
      | some c => (k.procs c).pid
      | none => (k.procs i).parentPid
    pageTable := pt, pid := 1 + i, state := .runnable, heapEnd := 0x3001000, userStackTop := 0x1020000
    entryPoint := userBase, imagePa := flat, imageNpages := n }

/-- The trap frame of a first process lies on its kernel stack. -/
theorem initFrame_grows (hs : AllocOk L k.phys F) (ht : TrackOk L k.phys F) :
    Grows L o k.phys F (k.initFrame L i).phys F (· < L.freeRam) := by
  refine .write hs ht (fun a ha => ?_) fun pg hlow hp => absurd (hs.isPage hp).ge (by omega)
  have hout : ¬(L.tfStackFrame i ≤ a ∧ a < L.tfStackFrame i + frameSize) := fun hx =>
    ha (pageOf_lt (Nat.lt_of_lt_of_le hx.2 (tfStackFrame_lt L i)))
  have hword : ∀ {m : Mem} {j w : Nat}, j < 32 → setTfWord m (L.tfStackFrame i) j w a = m a := by
    intro m j w hj
    exact store64_outside (by unfold frameSize at hout; omega)
  rw [hword (by decide), hword (by decide), hword (by decide), memset_outside hout]

/-- The first page of the program is one of zeros. -/
def BlankPage (m : Mem) (root : Nat) : Prop :=
  ∀ pg x, userFrame (leafAt m root (vpn userBase)) = some pg → x < 4096 → m (pg + x) = 0

/-- A first process is made in a free slot. -/
structure Created (L : Layout) (k : Kernel) (F : List Nat) (elf : Elf) (i : Fin procsMax) (pt flat n : Nat)
    (k' : Kernel) (F' : List Nat) : Prop where
  slot : k.freeSlot = some i
  grows : Grows L k.owner k.phys F k'.phys F' (· < L.freeRam)
  root : pt ≠ 0
  space : SpaceOk L k'.phys F' pt
  map : SpaceMap L k'.phys.mem pt
  identity : Identity L k'.phys.mem pt
  user : ∀ v pg, userFrame (leafAt k'.phys.mem pt v) = some pg → InitPage v
  code : CodeLeaf (leafAt k'.phys.mem pt (vpn userBase))
  data : ∀ v, DataPage 0x1020000 0x1010000 0x3000000 v → DataLeaf (leafAt k'.phys.mem pt v)
  blank : elf.Blank → BlankPage k'.phys.mem pt
  new : ∀ pg, InSpace k'.phys.mem pt pg → Avail L k.phys F pg ∧ ¬InBlock flat n pg
  image : ∀ pg, InBlock flat n pg → Avail L k.phys F pg ∧ ¬Avail L k'.phys F' pg
  globals : k'.Globals
  state : k' = { k with
    phys := k'.phys, processCount := k.processCount + 1
    gUserStackTop := k'.gUserStackTop, gUserStackBottom := k'.gUserStackBottom
    gUserHeapStart := k'.gUserHeapStart, gUserHeapEnd := k'.gUserHeapEnd }.setProc i
      (initRecord L k i pt flat n)

theorem ImageByte.blank {flat x : Nat} {b : UInt8}
    (h : ImageByte L s F flat elf.imageSize 0x1020000 0x1010000 0x3000000 (vpn userBase) x b)
    (he : elf.Linked) (hflat : flat % 4096 = 0) (hx : x < 4096)
    (htaken : ∀ pg, InBlock flat (imagePages elf) pg → ¬Avail L s F pg)
    (hzero : ∀ y < elf.imageSize, s.mem (flat + y) = 0) : b = 0 := by
  obtain ⟨h1, h2, h3, h4, h5, _⟩ := he.span
  have hpos := (imagePages_pos he).1
  have hin : InBlock flat (imagePages elf) (pageOf (flat + x)) :=
    inBlock_pageOf hflat (by omega) (by omega)
  obtain ⟨n, hn⟩ : ∃ n, Phys.imageSource flat elf.imageSize (userBase + 4096 * 0) = (flat, n) :=
    ⟨_, by rw [Phys.imageSource]; simp; rfl⟩
  rw [h (by unfold userBase kernelBase at *; omega) not_dataPage_userBase 0 hpos rfl flat n hn (htaken _ hin)]
  have hsize : x < elf.imageSize := by
    unfold imagePages at hpos
    omega
  split
  · exact hzero x hsize
  · rfl

theorem create_spec (hs : AllocOk L k.phys F) (ht : TrackOk L k.phys F) (he : elf.Linked)
    (h : k.extractFlatBinaryFromElf L elf true = .ok (i, k')) :
    ∃ pt flat F', Created L k F elf i pt flat (imagePages elf) k' F' := by
  simp only [extractFlatBinaryFromElf, bind_eq_ok, Prod.exists, if_true] at h
  obtain ⟨flat, k₁, h1, h⟩ := h
  obtain ⟨F₁, hi⟩ := loadImage_spec hs ht he h1
  have hprocs : k₁.procs = k.procs := by rw [hi.state]
  have hcur : k₁.currentProc = k.currentProc := by rw [hi.state]
  have hcount : k₁.processCount = k.processCount := by rw [hi.state]
  have hslot : k₁.freeSlot = k.freeSlot := by rw [freeSlot, freeSlot, hprocs]
  unfold createInitProcess at h
  rw [hslot] at h
  cases hc : k.freeSlot with
  | none =>
      rw [hc] at h
      cases h
  | some j =>
      rw [hc] at h
      simp only [bind_eq_ok, Prod.exists, Except.ok.injEq, Prod.mk.injEq] at h
      obtain ⟨pt, s, h2, rfl, rfl⟩ := h
      have hf := initFrame_grows (o := k.owner) (i := j) hi.grows.ok hi.grows.track
      have howner : k₁.owner = k.owner := by rw [owner, owner, hcur, hprocs]
      have howner' : Kernel.owner { k₁.initFrame L j with processCount := k₁.processCount + 1 } = k.owner :=
        howner
      rw [howner'] at h2
      obtain ⟨F', hn, huser, hid, hcode, hbyte, hdata, -⟩ := buildSpace_spec hf.ok hf.track h2
      have hpt := (hn.space.page pt inSpace_root).1.ne_zero
      have hi' : Grows L k.owner k.phys F k₁.phys F₁ (· < L.freeRam) := hi.grows.mono fun _ h => h.elim
      have hg := hi'.trans hf fun _ h => .inl h
      have hg' := hg.trans hn.grows fun _ h => h.elim
      obtain ⟨h3, h4, h5, h6, h7, _⟩ := he.span
      have hfirst : CodePage elf.imageSize 0x1020000 0x1010000 0x3000000 (vpn userBase) :=
        ⟨⟨0, (imagePages_pos he).1, rfl⟩, not_dataPage_userBase⟩
      refine ⟨pt, flat, F', hc, hg', hpt, hn.space, hn.map, hid ?_ ?_ ?_, fun v pg hv => ?_, ?_, ?_,
        fun hblank pg x hpg hx => ?_, fun pg hpg => ⟨?_, fun hb => ?_⟩,
        fun pg hpg => ⟨hi.was pg hpg, fun hav => ?_⟩, ?_, ?_⟩
      · unfold userBase kernelBase at *
        omega
      · show k₁.gUserStackTop < kernelBase
        rw [hi.globals.stackTop]
        decide
      · show k₁.gUserHeapStart < kernelBase
        rw [hi.globals.heapStart]
        decide
      · have hv := huser v pg hv
        change ProgramPage _ k₁.gUserStackTop k₁.gUserStackBottom k₁.gUserHeapStart v at hv
        rw [hi.globals.stackTop, hi.globals.stackBottom, hi.globals.heapStart] at hv
        exact initPage_of_program he hv
      · change ∀ v, CodePage _ k₁.gUserStackTop k₁.gUserStackBottom k₁.gUserHeapStart v → _ at hcode
        rw [hi.globals.stackTop, hi.globals.stackBottom, hi.globals.heapStart] at hcode
        exact hcode _ hfirst
      · change ∀ v, DataPage k₁.gUserStackTop k₁.gUserStackBottom k₁.gUserHeapStart v → _ at hdata
        rw [hi.globals.stackTop, hi.globals.stackBottom, hi.globals.heapStart] at hdata
        exact hdata
      · change ∀ v pg x, CodePage _ k₁.gUserStackTop k₁.gUserStackBottom k₁.gUserHeapStart v → _ → _ →
          ImageByte L _ _ _ _ k₁.gUserStackTop k₁.gUserStackBottom k₁.gUserHeapStart v x _ at hbyte
        rw [hi.globals.stackTop, hi.globals.stackBottom, hi.globals.heapStart] at hbyte
        have hfirstPage : InBlock flat (imagePages elf) flat := ⟨0, (imagePages_pos he).1, by omega⟩
        refine ImageByte.blank (hbyte _ pg x hfirst hpg hx) he (hs.isPage (hi.was flat hfirstPage)).aligned hx
          (fun pg hpg hav => hi.taken pg hpg (hf.avail pg hav)) fun y hy => ?_
        have hin : InBlock flat (imagePages elf) (pageOf (flat + y)) :=
          inBlock_pageOf (hs.isPage (hi.was flat hfirstPage)).aligned (by omega) (by unfold imagePages; omega)
        have hout : (k₁.initFrame L j).phys.mem (flat + y) = k₁.phys.mem (flat + y) :=
          hf.mem _ (hi.taken _ hin) fun hlow => absurd (hs.isPage (hi.was _ hin)).ge (by omega)
        exact hout.trans (hi.blank hblank y hy)
      · exact hg.avail pg (hn.new pg hpg)
      · exact hi.taken pg hb (hf.avail pg (hn.new pg hpg))
      · exact hi.taken pg hpg (hf.avail pg (hn.grows.avail pg hav))
      · exact ⟨hi.globals.stackTop, hi.globals.stackBottom, hi.globals.heapStart, hi.globals.heapEnd⟩
      · have h7 : k₁.idleProc = k.idleProc := by rw [hi.state]
        have h8 : k₁.gStartup = k.gStartup := by rw [hi.state]
        have h9 : k₁.kernelPagetable = k.kernelPagetable := by rw [hi.state]
        have h10 : k₁.satp = k.satp := by rw [hi.state]
        have h11 : k₁.sscratch = k.sscratch := by rw [hi.state]
        simp only [initFrame, setProc, hprocs, hcur, hi.globals.stackTop, hi.globals.heapStart, hcount,
          h7, h8, h9, h10, h11, initRecord]
        cases k.currentProc with
        | none => rfl
        | some c => rfl

/-- A first process whose pages are tracked under the pid 0 is well formed. -/
theorem Created.inv {pt flat n : Nat} {k'' : Kernel} (h : Created L k F elf i pt flat n k' F') (hk : k.Inv L F)
    (howner : k.owner = 0) (hphys : k''.phys = k'.phys) (hprocs : k''.procs = Function.update k.procs i p)
    (hpt : p.pageTable = pt) (htf : p.tf = L.tfStackFrame i) (hpa : p.imagePa = flat)
    (hnp : p.imageNpages = n) (hpid : p.pid = if i = 0 then 0 else (i : Nat) + 1) (hpar : p.parent ≠ some i) :
    k''.Inv L F' := by
  subst hpt hpa hnp
  have hfrom : ∀ r pg, p.holds L k'.phys.mem i r = some pg → Avail L k.phys F pg := by
    intro r pg hr
    cases r with
    | space q => exact (h.new pg ⟨q, (Proc.holds_space_some hr).2⟩).1
    | tf => exact absurd htf (Proc.holds_tf_some hr).1
    | image n => exact (h.image pg ⟨n, (Proc.holds_image_some hr).2⟩).1
  refine hk.grow h.grows hphys hprocs (fun pg hlow j _ hl hpt ht => ?_) (fun _ => ?_)
    fun _ r pg hr => .inr (hfrom r pg hr)
  · exact absurd (((hk.proc j hl).spaceOk hpt).page pg ht.inSpace).1.ge (by omega)
  · refine .of_parts (fun _ => ⟨h.space, h.map⟩) (fun hne => absurd htf hne) (fun _ pg hpg => ?_)
      (fun r pg e hr hu hp => ?_) hpid hpar
    · exact ⟨hk.ok.isPage (h.image pg hpg).1, (h.image pg hpg).2, fun _ hs => (h.new pg hs).2 hpg,
        fun hne => absurd htf hne⟩
    · refine .inr (.inl ?_)
      rw [h.grows.owner_eq hk.track hu (hp ▸ hfrom r pg hr), howner]

/-- What the start of the system leaves: idle in slot 0 and the shell in slot 1. -/
structure Booted (L : Layout) (k : Kernel) (F : List Nat) : Prop extends k.Valid L F where
  procs : k.procs = Function.update (Function.update (fun _ => {}) 0 (k.procs 0)) 1 (k.procs 1)
  identity : ∀ i, k.Live i → Identity L k.phys.mem (k.procs i).pageTable
  heap : ∀ i, k.Live i → (k.procs i).heapEnd = 0x3001000
  top : ∀ i, k.Live i → (k.procs i).userStackTop = 0x1020000
  tf : ∀ i, k.Live i → (k.procs i).tf = L.tfStackFrame i
  user : ∀ i, k.Live i → ∀ v pg, userFrame (leafAt k.phys.mem (k.procs i).pageTable v) = some pg → InitPage v
  code : ∀ i, k.Live i → CodeLeaf (leafAt k.phys.mem (k.procs i).pageTable (vpn userBase))
  data : ∀ i, k.Live i → ∀ v, DataPage 0x1020000 0x1010000 0x3000000 v →
    DataLeaf (leafAt k.phys.mem (k.procs i).pageTable v)
  idleState : (k.procs 0).state = .runnable
  shellState : (k.procs 1).state = .running
  shellPid : (k.procs 1).pid = 2
  shellParent : (k.procs 1).parent = some 0 ∧ (k.procs 1).parentPid = 0
  current : k.currentProc = some 1
  active : k.satp = (k.procs 1).pageTable
  count : k.processCount = 2
  idleProc : k.idleProc = 0

theorem find_mem {name : List UInt8} (h : fs.find name = some elf) : ∃ f ∈ fs, f.2 = elf := by
  unfold Initramfs.find at h
  obtain ⟨f, hf, rfl⟩ := Option.map_eq_some_iff.mp h
  exact ⟨f, List.mem_of_find?_eq_some hf, rfl⟩

theorem freeSlot_reset (h : ∀ i, ¬k.Live i) : k.freeSlot = some 0 := by
  have h0 : (k.procs 0).state = .unused := by simpa [Live] using h 0
  simp [freeSlot, List.finRange_succ, h0]

/-- The first `yield` leaves idle for the shell. -/
theorem yield_first (hcur : k.currentProc = some 0) (hcount : k.processCount = 2)
    (h0 : (k.procs 0).state = .runnable) (h1 : (k.procs 1).state = .runnable) (hpid : (k.procs 1).pid ≠ 0) :
    (k.yield L).1 = { k.setProc 1 { k.procs 1 with state := .running } with
      satp := (k.procs 1).pageTable, sscratch := L.tfTop 1, currentProc := some 1, gStartup := false } := by
  have hc : k.cur = 0 := cur_eq hcur
  have hstay : k.changeState 0 .running .runnable = k := by
    unfold changeState
    rw [h0]
    rfl
  have hnext : k.pickNext = 1 := by
    simp [pickNext, List.finRange_succ, hcount, h1, hpid]
  have hgo : k.changeState 1 .runnable .running = k.setProc 1 { k.procs 1 with state := .running } := by
    unfold changeState
    rw [if_pos h1]
  unfold yield
  simp only [hc, hstay, hnext, hgo]
  rw [if_neg (by decide : ¬(1 : Fin procsMax) = 0)]
  rfl

/-- Idle: the first process created. -/
structure IdleUp (L : Layout) (k : Kernel) (F : List Nat) : Prop where
  inv : k.Inv L F
  procs : k.procs = Function.update (fun _ => {}) 0 (k.procs 0)
  root : (k.procs 0).pageTable ≠ 0
  identity : Identity L k.phys.mem (k.procs 0).pageTable
  heap : (k.procs 0).heapEnd = 0x3001000
  top : (k.procs 0).userStackTop = 0x1020000
  tf : (k.procs 0).tf = L.tfStackFrame 0
  user : ∀ v pg, userFrame (leafAt k.phys.mem (k.procs 0).pageTable v) = some pg → InitPage v
  code : CodeLeaf (leafAt k.phys.mem (k.procs 0).pageTable (vpn userBase))
  data : ∀ v, DataPage 0x1020000 0x1010000 0x3000000 v → DataLeaf (leafAt k.phys.mem (k.procs 0).pageTable v)
  state : (k.procs 0).state = .runnable
  pid : (k.procs 0).pid = 0
  parent : (k.procs 0).parent = none
  current : k.currentProc = some 0
  count : k.processCount = 1
  idleProc : k.idleProc = 0

theorem makeIdle_spec {k₀ k₁ : Kernel} (h0 : (reset L m).pagingInit L = .ok k₀) (he : elf.Linked)
    (h1 : k₀.extractFlatBinaryFromElf L elf true = .ok (i, k₁)) :
    ∃ F₁, IdleUp L (k₁.makeIdle i) F₁ := by
  obtain ⟨F₀, hg0, hst0⟩ := pagingInit_spec (F := []) (.boot L m) (.boot L m) h0
  have hprocs0 : k₀.procs = fun _ => {} := by
    rw [hst0]
    rfl
  have hcur0 : k₀.currentProc = none := by
    rw [hst0]
    rfl
  have hcount0 : k₀.processCount = 0 := by
    rw [hst0]
    rfl
  have hdead : ∀ i, ¬k₀.Live i := fun i hl => hl (by rw [hprocs0])
  have howner : k₀.owner = 0 := by rw [owner, hcur0]; rfl
  obtain ⟨pt, flat, F₁, hc⟩ := create_spec hg0.ok hg0.track he h1
  obtain rfl : i = 0 := Option.some.inj (hc.slot.symm.trans (freeSlot_reset hdead))
  have hr : k₁.procs 0 = initRecord L k₀ 0 pt flat (imagePages elf) := by
    rw [hc.state]
    exact setProc_procs_self
  have hp : (k₁.makeIdle 0).procs = Function.update k₀.procs 0
      { initRecord L k₀ 0 pt flat (imagePages elf) with pid := 0, name := idleName.take 4 } := by
    show Function.update k₁.procs 0 _ = _
    rw [hr, hc.state]
    exact Function.update_idem _ _ _
  have hpar : (initRecord L k₀ 0 pt flat (imagePages elf)).parent = none := by
    simp only [initRecord, hcur0, hprocs0]
  have hinv : (k₁.makeIdle 0).Inv L F₁ :=
    hc.inv (.of_dead hg0.ok hg0.track hdead) howner rfl hp rfl rfl rfl rfl rfl (by rw [hpar]; simp)
  have hself : (k₁.makeIdle 0).procs 0 =
      { initRecord L k₀ 0 pt flat (imagePages elf) with pid := 0, name := idleName.take 4 } := by
    rw [hp, Function.update_self]
  refine ⟨F₁, hinv, ?_, ?_, ?_, ?_, ?_, ?_, ?_, ?_, ?_, ?_, ?_, ?_, rfl, ?_, rfl⟩
  · rw [hself, hp, hprocs0]
  · rw [hself]
    exact hc.root
  · rw [hself]
    exact hc.identity
  · rw [hself]
    rfl
  · rw [hself]
    rfl
  · rw [hself]
    rfl
  · rw [hself]
    exact hc.user
  · rw [hself]
    exact hc.code
  · rw [hself]
    exact hc.data
  · rw [hself]
    rfl
  · rw [hself]
  · rw [hself]
    exact hpar
  · show k₁.processCount = 1
    rw [hc.state]
    show k₀.processCount + 1 = 1
    rw [hcount0]
    rfl

/-- The shell, created but not yet running. -/
structure ShellUp (L : Layout) (elf : Elf) (k : Kernel) (F : List Nat) : Prop where
  inv : k.Inv L F
  procs : k.procs = Function.update (Function.update (fun _ => {}) 0 (k.procs 0)) 1 (k.procs 1)
  globals : k.Globals
  root : ∀ i, k.Live i → (k.procs i).pageTable ≠ 0
  identity : ∀ i, k.Live i → Identity L k.phys.mem (k.procs i).pageTable
  heap : ∀ i, k.Live i → (k.procs i).heapEnd = 0x3001000
  top : ∀ i, k.Live i → (k.procs i).userStackTop = 0x1020000
  tf : ∀ i, k.Live i → (k.procs i).tf = L.tfStackFrame i
  user : ∀ i, k.Live i → ∀ v pg, userFrame (leafAt k.phys.mem (k.procs i).pageTable v) = some pg → InitPage v
  code : ∀ i, k.Live i → CodeLeaf (leafAt k.phys.mem (k.procs i).pageTable (vpn userBase))
  data : ∀ i, k.Live i → ∀ v, DataPage 0x1020000 0x1010000 0x3000000 v →
    DataLeaf (leafAt k.phys.mem (k.procs i).pageTable v)
  blank : elf.Blank → BlankPage k.phys.mem (k.procs 1).pageTable
  idleState : (k.procs 0).state = .runnable
  idleParent : (k.procs 0).parent = none
  shellState : (k.procs 1).state = .runnable
  shellPid : (k.procs 1).pid = 2
  shellParent : (k.procs 1).parent = some 0 ∧ (k.procs 1).parentPid = 0
  current : k.currentProc = some 0
  count : k.processCount = 2
  idleProc : k.idleProc = 0

theorem makeShell_spec {k₁ k₂ : Kernel} (name : List UInt8) (hi : IdleUp L k₁ F) (he : elf.Linked)
    (h : k₁.extractFlatBinaryFromElf L elf true = .ok (i, k₂)) :
    i = 1 ∧ ∃ F, ShellUp L elf (k₂.setName i name) F := by
  have howner : k₁.owner = 0 := by rw [owner_eq hi.current, hi.pid]
  obtain ⟨pt, flat, F', hc⟩ := create_spec hi.inv.ok hi.inv.track he h
  have h1 : (k₁.procs 1).state = .unused := by
    rw [hi.procs]
    rfl
  have hslot : k₁.freeSlot = some 1 := by simp [freeSlot, List.finRange_succ, hi.state, h1]
  obtain rfl : i = 1 := Option.some.inj (hc.slot.symm.trans hslot)
  refine ⟨rfl, F', ?_⟩
  have hl0 : k₁.Live 0 := by simp [Live, hi.state]
  have hpt : (initRecord L k₁ 1 pt flat (imagePages elf)).pageTable = pt := rfl
  have htf : (initRecord L k₁ 1 pt flat (imagePages elf)).tf = L.tfStackFrame 1 := rfl
  have hst : (initRecord L k₁ 1 pt flat (imagePages elf)).state = .runnable := rfl
  have hheap : (initRecord L k₁ 1 pt flat (imagePages elf)).heapEnd = 0x3001000 := rfl
  have htop : (initRecord L k₁ 1 pt flat (imagePages elf)).userStackTop = 0x1020000 := rfl
  have hpid : (initRecord L k₁ 1 pt flat (imagePages elf)).pid = 2 := rfl
  have hpa : (initRecord L k₁ 1 pt flat (imagePages elf)).imagePa = flat := rfl
  have hnp : (initRecord L k₁ 1 pt flat (imagePages elf)).imageNpages = imagePages elf := rfl
  have hpar : (initRecord L k₁ 1 pt flat (imagePages elf)).parent = some 0 ∧
      (initRecord L k₁ 1 pt flat (imagePages elf)).parentPid = 0 := by
    simp only [initRecord, hi.current, hi.pid, and_self]
  obtain ⟨r, hr⟩ : ∃ r, r = initRecord L k₁ 1 pt flat (imagePages elf) := ⟨_, rfl⟩
  have hprocs : k₂.procs = Function.update k₁.procs 1 r := by
    rw [hr, hc.state]
    rfl
  rw [← hr] at hpt htf hst hheap htop hpid hpa hnp hpar
  have hp : (k₂.setName 1 name).procs = Function.update k₁.procs 1 { r with name := name } := by
    show Function.update k₂.procs 1 { k₂.procs 1 with name := name } = _
    rw [hprocs, Function.update_self]
    exact Function.update_idem _ _ _
  have hself : (k₂.setName 1 name).procs 1 = { r with name := name } := by rw [hp, Function.update_self]
  have hother : (k₂.setName 1 name).procs 0 = k₁.procs 0 := by
    rw [hp]
    exact Function.update_of_ne (by decide) _ _
  have hinv : (k₂.setName 1 name).Inv L F' := hc.inv hi.inv howner rfl hp hpt htf hpa hnp hpid
    (by rw [show ({ r with name := name } : Proc).parent = some 0 from hpar.1]; decide)
  -- only the first two slots are in use
  have hlive : ∀ j, (k₂.setName 1 name).Live j → j = 0 ∨ j = 1 := by
    intro j hj
    by_contra hne
    rw [not_or] at hne
    refine hj ?_
    rw [hp, Function.update_of_ne hne.2, hi.procs, Function.update_of_ne hne.1]
  have hleaf0 : leafAt k₂.phys.mem (k₁.procs 0).pageTable = leafAt k₁.phys.mem (k₁.procs 0).pageTable := by
    have ho := hi.inv.proc 0 hl0
    refine leafAt_congr (fun a ha => ?_) fun pg => ho.aligned hi.root
    have hpg := (ho.spaceOk hi.root).page _ ha.inSpace
    exact hc.grows.mem a hpg.2 (Nat.not_lt.mpr hpg.1.ge)
  have hrest : k₂.currentProc = k₁.currentProc ∧ k₂.processCount = k₁.processCount + 1 ∧
      k₂.idleProc = k₁.idleProc := by
    rw [hc.state]
    exact ⟨rfl, rfl, rfl⟩
  have both : ∀ {P : Fin procsMax → Proc → Prop}, P 0 (k₁.procs 0) → P 1 { r with name := name } →
      ∀ j, (k₂.setName 1 name).Live j → P j ((k₂.setName 1 name).procs j) := by
    intro P h0 h1 j hj
    rcases hlive j hj with rfl | rfl
    · rw [hother]
      exact h0
    · rw [hself]
      exact h1
  exact {
    inv := hinv
    procs := by
      rw [hself, hother, hp, ← hi.procs]
    globals := ⟨hc.globals.stackTop, hc.globals.stackBottom, hc.globals.heapStart, hc.globals.heapEnd⟩
    root := both (P := fun _ p => p.pageTable ≠ 0) hi.root (hpt ▸ hc.root)
    identity := both (P := fun _ p => Identity L k₂.phys.mem p.pageTable) (hi.identity.congr hleaf0)
      (hpt ▸ hc.identity)
    heap := both (P := fun _ p => p.heapEnd = 0x3001000) hi.heap hheap
    top := both (P := fun _ p => p.userStackTop = 0x1020000) hi.top htop
    tf := both (P := fun j p => p.tf = L.tfStackFrame j) hi.tf htf
    user := both (P := fun _ p => ∀ v pg, userFrame (leafAt k₂.phys.mem p.pageTable v) = some pg → InitPage v)
      (hleaf0 ▸ hi.user) (hpt ▸ hc.user)
    code := both (P := fun _ p => CodeLeaf (leafAt k₂.phys.mem p.pageTable (vpn userBase)))
      (hleaf0 ▸ hi.code) (hpt ▸ hc.code)
    data := both (P := fun _ p => ∀ v, DataPage 0x1020000 0x1010000 0x3000000 v →
      DataLeaf (leafAt k₂.phys.mem p.pageTable v)) (hleaf0 ▸ hi.data) (hpt ▸ hc.data)
    blank := by
      rw [hself]
      exact hpt ▸ hc.blank
    idleState := by rw [hother, hi.state]
    idleParent := by rw [hother, hi.parent]
    shellState := by rw [hself]; exact hst
    shellPid := by rw [hself]; exact hpid
    shellParent := by rw [hself]; exact hpar
    current := hrest.1.trans hi.current
    count := by
      show k₂.processCount = 2
      rw [hrest.2.1, hi.count]
      rfl
    idleProc := hrest.2.2.trans hi.idleProc }

/-- The first `yield` takes the shell as the first process to run. -/
theorem booted_of_shell (hs : ShellUp L elf k F) : Booted L (k.yield L).1 F := by
  have hy := yield_first (L := L) hs.current hs.count hs.idleState hs.shellState (by rw [hs.shellPid]; decide)
  have hprocs : (k.yield L).1.procs = Function.update k.procs 1 { k.procs 1 with state := .running } := by
    rw [hy]
    rfl
  have h0 : (k.yield L).1.procs 0 = k.procs 0 := by rw [hprocs, Function.update_of_ne (by decide)]
  have h1 : (k.yield L).1.procs 1 = { k.procs 1 with state := .running } := by
    rw [hprocs, Function.update_self]
  have hphys : (k.yield L).1.phys = k.phys := by
    rw [hy]
    rfl
  have hlive : ∀ i, (k.yield L).1.Live i ↔ k.Live i := fun i => (yield_same L k i).live
  -- what `yield` changes of a process is its state
  have hall : ∀ {P : Fin procsMax → Proc → Prop}, (∀ i p s, P i p → P i { p with state := s }) →
      (∀ i, k.Live i → P i (k.procs i)) → ∀ i, (k.yield L).1.Live i → P i ((k.yield L).1.procs i) := by
    intro P hP h i hl
    by_cases hi : i = 1
    · subst hi
      rw [h1]
      exact hP _ _ _ (h 1 ((hlive 1).mp hl))
    · rw [hprocs, Function.update_of_ne hi]
      exact h i ((hlive i).mp hl)
  have hvalid : k.Valid L F :=
    { toInv := hs.inv
      full := hs.root
      stack := fun i hl => by
        rw [hs.top i hl]
        decide
      idle := ⟨by rw [Live, hs.idleState]; decide, hs.idleParent⟩
      globals := hs.globals }
  exact {
    toValid := hvalid.yield
    procs := by
      rw [h0, h1, hprocs]
      nth_rewrite 1 [hs.procs]
      exact Function.update_idem _ _ _
    identity := by
      rw [hphys]
      exact hall (P := fun _ p => Identity L k.phys.mem p.pageTable) (fun _ _ _ h => h) hs.identity
    heap := hall (P := fun _ p => p.heapEnd = 0x3001000) (fun _ _ _ h => h) hs.heap
    top := hall (P := fun _ p => p.userStackTop = 0x1020000) (fun _ _ _ h => h) hs.top
    tf := hall (P := fun i p => p.tf = L.tfStackFrame i) (fun _ _ _ h => h) hs.tf
    user := by
      rw [hphys]
      exact hall (P := fun _ p => ∀ v pg, userFrame (leafAt k.phys.mem p.pageTable v) = some pg → InitPage v)
        (fun _ _ _ h => h) hs.user
    code := by
      rw [hphys]
      exact hall (P := fun _ p => CodeLeaf (leafAt k.phys.mem p.pageTable (vpn userBase)))
        (fun _ _ _ h => h) hs.code
    data := by
      rw [hphys]
      exact hall (P := fun _ p => ∀ v, DataPage 0x1020000 0x1010000 0x3000000 v →
        DataLeaf (leafAt k.phys.mem p.pageTable v)) (fun _ _ _ h => h) hs.data
    idleState := by rw [h0, hs.idleState]
    shellState := by rw [h1]
    shellPid := by rw [h1]; exact hs.shellPid
    shellParent := by rw [h1]; exact hs.shellParent
    current := by rw [hy]
    active := by rw [h1, hy]
    count := by rw [hy]; exact hs.count
    idleProc := by rw [hy]; exact hs.idleProc }

theorem kernelMain_booted (hfs : ∀ f ∈ fs, f.2.Linked) (h : kernelMain L fs m = .ok k) :
    ∃ F, Booted L k F ∧
      ((∀ f ∈ fs, f.2.Blank) → BlankPage k.phys.mem (k.procs 1).pageTable) := by
  unfold kernelMain at h
  simp only [bind_eq_ok] at h
  obtain ⟨k₀, h0, h⟩ := h
  cases hf1 : fs.find idleName with
  | none =>
      rw [hf1] at h
      cases h
  | some elf =>
      rw [hf1] at h
      simp only [bind_eq_ok, Prod.exists] at h
      obtain ⟨i₁, k₁, h1, h⟩ := h
      cases hf2 : fs.find shellName with
      | none =>
          rw [hf2] at h
          cases h
      | some elf' =>
          rw [hf2] at h
          simp only [bind_eq_ok, Prod.exists, Except.ok.injEq] at h
          obtain ⟨i₂, k₂, h2, hk⟩ := h
          obtain ⟨f, hf, rfl⟩ := find_mem hf1
          obtain ⟨f', hf', rfl⟩ := find_mem hf2
          obtain ⟨F₁, hi⟩ := makeIdle_spec h0 (hfs f hf) h1
          obtain ⟨-, F₂, hs⟩ := makeShell_spec (shellName.take 5) hi (hfs f' hf') h2
          have hpt := (yield_same L (k₂.setName i₂ (shellName.take 5)) 1).pageTable
          rw [← hk]
          refine ⟨F₂, booted_of_shell hs, fun hblank => ?_⟩
          rw [hpt, yield_phys]
          exact hs.blank (hblank f' hf')

end Kernel

end RiscvOs
