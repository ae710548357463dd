import RiscvOs.Lemmas.Own

/-!
# Calls that only take pages

What trap entry, `yield`, `sys_exit` and `sys_sbrk` do to the process table and to memory, and that they
keep the invariant.
-/

namespace RiscvOs

open ByteMem Outcome

/-- The symbols of `user.ld`. -/
structure Kernel.Globals (k : Kernel) : Prop where
  stackTop : k.gUserStackTop = 0x1020000
  stackBottom : k.gUserStackBottom = 0x1010000
  heapStart : k.gUserHeapStart = 0x3000000
  heapEnd : k.gUserHeapEnd = 0x3020000

/-- A state between two traps: every live process has an address space, and idle is alive. -/
structure Kernel.Valid (L : Layout) (k : Kernel) (F : List Nat) : Prop extends k.Inv L F where
  full : ∀ i, k.Live i → (k.procs i).pageTable ≠ 0
  stack : ∀ i, k.Live i → (k.procs i).userStackTop ≤ kernelBase
  idle : k.Live 0 ∧ (k.procs 0).parent = none
  globals : k.Globals

variable {L : Layout} {k k' : Kernel} {F F' : List Nat} {i j c : Fin procsMax} {r : Role} {f : Frame}
  {pg o code : Nat} {p p' : Proc} {m : Mem} {s s' : Phys} {S : Vpn → Prop}
  {C : Vpn → Nat → UInt8 → Prop} {inc : Int} {ret : SysRet}

/-! ## Trap frames -/

theorem storeFrame_outside {a x : Nat} (h : ¬(a ≤ x ∧ x < a + frameSize)) : storeFrame m a f x = m x :=
  write_outside h

theorem tfStackFrame_lt (L : Layout) (i : Fin procsMax) : L.tfStackFrame i + frameSize ≤ L.freeRam := by
  have h1 := L.tfTop_le i
  have h2 : frameSize ≤ L.tfTop i := by
    simp only [Layout.tfTop, tfStackEnd, frameSize]
    omega
  unfold Layout.tfStackFrame
  omega

theorem tfStackFrame_add (L : Layout) (i : Fin procsMax) : L.tfStackFrame i + frameSize = L.tfTop i := by
  simp only [Layout.tfStackFrame, Layout.tfTop, tfStackEnd, frameSize]
  omega

theorem pageOf_lt {a : Nat} (h : a < L.freeRam) : pageOf a < L.freeRam := by
  unfold pageOf
  omega

/-- Where a trap frame may lie: on the kernel stack, or in a page of its own. -/
theorem ProcOk.tf_cases (h : ProcOk L s F i p) :
    p.tf = L.tfStackFrame i ∨ p.holds L s.mem i .tf = some p.tf ∧ IsPage L p.tf := by
  by_cases he : p.tf = L.tfStackFrame i
  · exact .inl he
  · have hh : p.holds L s.mem i .tf = some p.tf := if_neg he
    exact .inr ⟨hh, (h.page _ _ hh).1⟩

/-- The pages that hold the trap frames of process `i`. -/
def TfPages (L : Layout) (k : Kernel) (i : Fin procsMax) (pg : Nat) : Prop :=
  pg < L.freeRam ∨ k.Holds L i .tf pg

theorem ProcOk.tf_page (h : ProcOk L k.phys F i (k.procs i)) (hl : k.Live i) {a : Nat}
    (ha : (k.procs i).tf ≤ a) (ha' : a < (k.procs i).tf + frameSize) : TfPages L k i (pageOf a) := by
  rcases h.tf_cases with he | ⟨hh, hp⟩
  · rw [he] at ha'
    exact .inl (pageOf_lt (Nat.lt_of_lt_of_le ha' (tfStackFrame_lt L i)))
  · have : pageOf a = (k.procs i).tf :=
      (pageOf_eq_iff hp.aligned).mpr ⟨ha, by unfold frameSize at ha'; omega⟩
    rw [this]
    exact .inr ⟨hl, hh⟩

/-! ## Addresses of the user -/

/-- One of the user's frames. -/
def UserPage (m : Mem) (root pg : Nat) : Prop := ∃ v, userFrame (leafAt m root v) = some pg

theorem UserPage.inSpace {root : Nat} (h : UserPage m root pg) : InSpace m root pg := by
  obtain ⟨v, hv⟩ := h
  exact inSpace_of_frame hv

/-- Below the kernel a virtual address belongs to one of the user's frames. -/
theorem SpaceMap.translate {root va pa mask : Nat} (h : SpaceMap L m root) (hva : va < kernelBase)
    (ht : Phys.translate m root va mask = some pa) :
    ∃ pg, userFrame (leafAt m root (vpn va)) = some pg ∧ pa = pg + va % 4096 := by
  unfold Phys.translate at ht
  rw [leafPte_eq] at ht
  simp only [Option.ite_none_right_eq_some, Bool.and_eq_true, Option.some.injEq] at ht
  obtain ⟨⟨⟨_, hv⟩, _⟩, rfl⟩ := ht
  obtain ⟨pg, hl⟩ := h.below ⟨va, hva, rfl⟩ hv
  refine ⟨pg, hl.frame, ?_⟩
  have := hl.frame
  unfold userFrame at this
  split at this
  · rw [Option.some.inj this]
  · cases this

namespace Kernel

theorem Inv.tfPages (hk : k.Inv L F) (h : TfPages L k i pg) :
    ¬Avail L k.phys F pg ∧ ∀ j, k.Live j → (k.procs j).pageTable ≠ 0 →
      ¬InSpace k.phys.mem (k.procs j).pageTable pg := by
  rcases h with h | h
  · refine ⟨fun ha => ?_, fun j hl hpt hs => ?_⟩
    · have := (hk.ok.isPage ha).ge
      omega
    · have := (((hk.proc j hl).spaceOk hpt).page pg hs).1.ge
      omega
  · refine ⟨((hk.proc i h.1).page _ pg h.2).2, fun j hl hpt hs => ?_⟩
    obtain ⟨q, hq⟩ := holds_space (L := L) hl hpt hs
    obtain rfl := hk.apart j i _ _ pg hq h
    cases (hk.proc j hl).inj _ _ pg hq.2 h.2

theorem Inv.tfPages_table (hk : k.Inv L F) (h : TfPages L k i pg) :
    ¬Avail L k.phys F pg ∧ ∀ j, k.Live j → (k.procs j).pageTable ≠ 0 →
      ¬IsTable k.phys.mem (k.procs j).pageTable pg :=
  ⟨(hk.tfPages h).1, fun j hl hpt ht => (hk.tfPages h).2 j hl hpt ht.inSpace⟩

/-! ## Entry -/

@[simp] theorem enter_procs : (k.enter L i f).procs = k.procs := rfl

@[simp] theorem enter_cur : (k.enter L i f).cur = i := rfl

@[simp] theorem enter_currentProc : (k.enter L i f).currentProc = some i := rfl

@[simp] theorem enter_live : (k.enter L i f).Live j ↔ k.Live j := Iff.rfl

theorem enter_mem (hp : ProcOk L k.phys F i (k.procs i)) (hl : k.Live i) {a : Nat}
    (ha : ¬TfPages L k i (pageOf a)) : (k.enter L i f).phys.mem a = k.phys.mem a := by
  have h1 : ¬((k.procs i).tf ≤ a ∧ a < (k.procs i).tf + frameSize) := fun h => ha (hp.tf_page hl h.1 h.2)
  have h2 : ¬(L.tfStackFrame i ≤ a ∧ a < L.tfStackFrame i + frameSize) := fun h =>
    ha (.inl (pageOf_lt (Nat.lt_of_lt_of_le h.2 (tfStackFrame_lt L i))))
  exact (memcpy_outside h1).trans (storeFrame_outside h2)

theorem Inv.enter (hk : k.Inv L F) (hl : k.Live i) : (k.enter L i f).Inv L F :=
  hk.write (W := TfPages L k i) rfl rfl (fun _ ha => enter_mem (hk.proc i hl) hl ha)
    fun _ hpg => hk.tfPages_table hpg

theorem Valid.enter (hk : k.Valid L F) (hl : k.Live i) : (k.enter L i f).Valid L F :=
  { hk.toInv.enter hl with
    full := hk.full
    stack := hk.stack
    idle := hk.idle
    globals := ⟨hk.globals.stackTop, hk.globals.stackBottom, hk.globals.heapStart, hk.globals.heapEnd⟩ }

/-- A step that gives one process a new record. -/
theorem Valid.update (hk : k.Valid L F) (hinv : k'.Inv L F') (hprocs : k'.procs = Function.update k.procs c p)
    (hfull : p.state ≠ .unused → p.pageTable ≠ 0) (hstack : p.state ≠ .unused → p.userStackTop ≤ kernelBase)
    (hidle : c = 0 → p.state ≠ .unused ∧ p.parent = none) (hg : k'.Globals) : k'.Valid L F' := by
  have hall : ∀ P : Proc → Prop, (p.state ≠ .unused → P p) → (∀ i, k.Live i → P (k.procs i)) →
      ∀ i, k'.Live i → P (k'.procs i) := by
    intro P hc ho i hl
    rw [Live, hprocs] at hl
    rw [hprocs]
    by_cases hi : i = c
    · subst hi
      rw [Function.update_self] at hl ⊢
      exact hc hl
    · rw [Function.update_of_ne hi] at hl ⊢
      exact ho i hl
  refine { hinv with
    full := hall (·.pageTable ≠ 0) hfull hk.full
    stack := hall (·.userStackTop ≤ kernelBase) hstack hk.stack
    idle := ?_
    globals := hg }
  · rw [Live, hprocs]
    by_cases hc : c = 0
    · subst hc
      rw [Function.update_self]
      exact hidle rfl
    · rw [Function.update_of_ne (Ne.symm hc)]
      exact hk.idle

/-- A step that writes neither memory nor what the invariant reads. -/
theorem Valid.relabel (hk : k.Valid L F) (hphys : k'.phys = k.phys)
    (hs : ∀ i, Same (k.procs i) (k'.procs i)) (hg : k'.Globals) : k'.Valid L F :=
  { hk.toInv.relabel hphys hs with
    full := fun i hl => by
      rw [(hs i).pageTable]
      exact hk.full i ((hs i).live.mp hl)
    stack := fun i hl => by
      rw [(hs i).userStackTop]
      exact hk.stack i ((hs i).live.mp hl)
    idle := ⟨(hs 0).live.mpr hk.idle.1, (hs 0).parent.trans hk.idle.2⟩
    globals := hg }

/-! ## Stores through the page table of a process -/

/-- Only the user's frames of process `c` are written. -/
structure UserWrites (k : Kernel) (c : Fin procsMax) (k' : Kernel) : Prop where
  state : k' = { k with phys := { k.phys with mem := k'.phys.mem } }
  mem : ∀ a, ¬UserPage k.phys.mem (k.procs c).pageTable (pageOf a) → k'.phys.mem a = k.phys.mem a

theorem UserWrites.refl (k : Kernel) (c : Fin procsMax) : UserWrites k c k := ⟨rfl, fun _ _ => rfl⟩

theorem UserWrites.procs (h : UserWrites k c k') : k'.procs = k.procs := by rw [h.state]

/-- The user's frames are no tables. -/
theorem Inv.userPage_table (hk : k.Inv L F) (hl : k.Live c) (hpt : (k.procs c).pageTable ≠ 0)
    (h : UserPage k.phys.mem (k.procs c).pageTable pg) :
    ¬Avail L k.phys F pg ∧ ∀ i, k.Live i → (k.procs i).pageTable ≠ 0 →
      ¬IsTable k.phys.mem (k.procs i).pageTable pg := by
  obtain ⟨v, hv⟩ := h
  have hs := (hk.proc c hl).spaceOk hpt
  refine ⟨(hs.page pg (inSpace_of_frame hv)).2, fun i hli hpti ht => ?_⟩
  obtain ⟨q, hq⟩ := holds_space (L := L) hl hpt (inSpace_of_frame hv)
  obtain ⟨q', hq'⟩ := holds_space (L := L) hli hpti ht.inSpace
  obtain rfl := hk.apart i c _ _ pg hq' hq
  exact hs.frame_not_table hv ht

/-- The page tables stay as they are. -/
theorem UserWrites.table (h : UserWrites k c k') (hk : k.Inv L F) (hl : k.Live c)
    (hpt : (k.procs c).pageTable ≠ 0) (hli : k.Live i) (hpti : (k.procs i).pageTable ≠ 0) {a : Nat}
    (ha : IsTable k.phys.mem (k.procs i).pageTable (pageOf a)) : k'.phys.mem a = k.phys.mem a :=
  h.mem a fun hu => (hk.userPage_table hl hpt hu).2 i hli hpti ha

theorem UserWrites.leafAt (h : UserWrites k c k') (hk : k.Inv L F) (hl : k.Live c)
    (hpt : (k.procs c).pageTable ≠ 0) (hli : k.Live i) (hpti : (k.procs i).pageTable ≠ 0) :
    leafAt k'.phys.mem (k.procs i).pageTable = leafAt k.phys.mem (k.procs i).pageTable :=
  leafAt_congr (fun _ ha => h.table hk hl hpt hli hpti ha) fun _ =>
    ((hk.proc i hli).spaceOk hpti).tables.aligned

theorem UserWrites.grows (h : UserWrites k c k') (hk : k.Inv L F) (hl : k.Live c)
    (hpt : (k.procs c).pageTable ≠ 0) :
    Grows L o k.phys F k'.phys F (UserPage k.phys.mem (k.procs c).pageTable) := by
  have hphys : k'.phys = { k.phys with mem := k'.phys.mem } := by rw [h.state]
  rw [hphys]
  exact .write hk.ok hk.track h.mem fun _ hpg => (hk.userPage_table hl hpt hpg).1

theorem UserWrites.alone (h : UserWrites k c k') (hk : k.Inv L F) (hl : k.Live c)
    (hpt : (k.procs c).pageTable ≠ 0) : Alone L k F k' F :=
  .of_grows hk (h.grows (o := 0) hk hl hpt) h.procs fun _ hpg => (hk.userPage_table hl hpt hpg).2

theorem UserWrites.inv (h : UserWrites k c k') (hk : k.Inv L F) (hl : k.Live c)
    (hpt : (k.procs c).pageTable ≠ 0) : k'.Inv L F := (h.alone hk hl hpt).inv hk

theorem UserWrites.live (h : UserWrites k c k') : k'.Live i ↔ k.Live i := by rw [Live, Live, h.procs]

theorem UserWrites.valid (h : UserWrites k c k') (hk : k.Valid L F) (hl : k.Live c) : k'.Valid L F := by
  refine { h.inv hk.toInv hl (hk.full c hl) with full := ?_, stack := ?_, idle := ?_, globals := ?_ }
  · exact fun i hli => h.procs ▸ hk.full i (h.live.mp hli)
  · exact fun i hli => h.procs ▸ hk.stack i (h.live.mp hli)
  · exact ⟨h.live.mpr hk.idle.1, h.procs ▸ hk.idle.2⟩
  · rw [h.state]
    exact ⟨hk.globals.stackTop, hk.globals.stackBottom, hk.globals.heapStart, hk.globals.heapEnd⟩

theorem UserWrites.trans {k'' : Kernel} (h : UserWrites k c k') (h' : UserWrites k' c k'') (hk : k.Inv L F)
    (hl : k.Live c) (hpt : (k.procs c).pageTable ≠ 0) : UserWrites k c k'' := by
  refine ⟨?_, fun a ha => ?_⟩
  · rw [h'.state, h.state]
  · rw [h'.mem a, h.mem a ha]
    unfold UserPage
    rw [h.procs, h.leafAt hk hl hpt hl hpt]
    exact ha

theorem storeU8_spec {va : Nat} {b : UInt8} (hk : k.Inv L F) (hl : k.Live c)
    (hpt : (k.procs c).pageTable ≠ 0) (hs : k.satp = (k.procs c).pageTable) (hva : va < kernelBase)
    (h : k.storeU8 L va b = .ok k') : UserWrites k c k' := by
  unfold storeU8 at h
  have hmod : va % 2 ^ 64 = va := Nat.mod_eq_of_lt (by unfold kernelBase at hva; omega)
  rw [hmod] at h
  split at h
  · rename_i pa ht
    rw [hs] at ht
    obtain ⟨pg, hf, rfl⟩ := ((hk.proc c hl).map hpt).translate hva ht
    obtain ⟨_, h⟩ := ite_error_eq_ok.mp h
    simp only [Except.ok.injEq] at h
    subst h
    refine ⟨rfl, fun a ha => Function.update_of_ne (fun he => ha ?_) _ _⟩
    have hp := (((hk.proc c hl).spaceOk hpt).page pg (inSpace_of_frame hf)).1
    have ho : pageOf a = pg := (pageOf_eq_iff hp.aligned).mpr ⟨by omega, by omega⟩
    rw [ho]
    exact ⟨_, hf⟩
  · cases h

theorem storeBytes_spec {va : Nat} {l : List UInt8} (hk : k.Inv L F) (hl : k.Live c)
    (hpt : (k.procs c).pageTable ≠ 0) (hs : k.satp = (k.procs c).pageTable)
    (hva : va + l.length ≤ kernelBase) (h : k.storeBytes L va l = .ok k') : UserWrites k c k' := by
  induction l generalizing k va with
  | nil =>
      simp only [storeBytes, Except.ok.injEq] at h
      subst h
      exact .refl k c
  | cons b l ih =>
      simp only [storeBytes, bind_eq_ok] at h
      obtain ⟨k₁, h1, h2⟩ := h
      simp only [List.length_cons] at hva
      have hw := storeU8_spec hk hl hpt hs (by omega) h1
      have hp := hw.procs
      refine hw.trans (ih (hw.inv hk hl hpt) (hw.live.mpr hl) (by rw [hp]; exact hpt) ?_ (by omega) h2)
        hk hl hpt
      rw [hp, ← hs, hw.state]

/-! ## Scheduling -/

theorem changeState_same (src dst : PState) (hs : src ≠ .unused) (hd : dst ≠ .unused)
    (j : Fin procsMax) : Same (k.procs j) ((k.changeState i src dst).procs j) := by
  unfold changeState
  split
  · rename_i h
    have hsame : Same (k.procs i) { k.procs i with state := dst } :=
      ⟨by simp [h, hs, hd], rfl, rfl, rfl, rfl, rfl, rfl, rfl, rfl, rfl⟩
    exact hsame.setProc j
  · exact .refl _

@[simp] theorem changeState_phys (src dst : PState) : (k.changeState i src dst).phys = k.phys := by
  unfold changeState
  split <;> rfl

theorem changeState_globals (src dst : PState) (h : k.Globals) : (k.changeState i src dst).Globals := by
  unfold changeState
  split
  · exact ⟨h.stackTop, h.stackBottom, h.heapStart, h.heapEnd⟩
  · exact h

/-- `yield` changes states between RUNNABLE and RUNNING and nothing else of a process. -/
theorem yield_same (L : Layout) (k : Kernel) (j : Fin procsMax) :
    Same (k.procs j) ((k.yield L).1.procs j) := by
  have h1 := changeState_same (k := k) (i := k.cur) .running .runnable (by simp) (by simp) j
  simp only [yield]
  split
  · exact h1
  · have h2 := changeState_same (k := k.changeState k.cur .running .runnable) (i := k.cur)
      .running .runnable (by simp) (by simp) j
    have h3 := changeState_same
      (k := (k.changeState k.cur .running .runnable).changeState k.cur .running .runnable)
      (i := (k.changeState k.cur .running .runnable).pickNext) .runnable .running (by simp) (by simp) j
    exact (h1.trans h2).trans h3

@[simp] theorem yield_phys (L : Layout) (k : Kernel) : (k.yield L).1.phys = k.phys := by
  simp only [yield]
  split <;> simp

theorem yield_globals (L : Layout) (h : k.Globals) : (k.yield L).1.Globals := by
  simp only [yield]
  split
  · exact changeState_globals _ _ h
  · have := changeState_globals (i := (k.changeState k.cur .running .runnable).pickNext) .runnable .running
      (changeState_globals (i := k.cur) .running .runnable
        (changeState_globals (i := k.cur) .running .runnable h))
    exact ⟨this.stackTop, this.stackBottom, this.heapStart, this.heapEnd⟩

theorem Valid.yield (hk : k.Valid L F) : (k.yield L).1.Valid L F :=
  hk.relabel (yield_phys L k) (yield_same L k) (yield_globals L hk.globals)

/-! ## `sys_exit` -/

theorem sysExit_same (hl : k.Live k.cur) (j : Fin procsMax) :
    Same (k.procs j) ((k.sysExit code).procs j) :=
  have hsame : Same (k.procs k.cur) { k.procs k.cur with state := .zombie, exitCode := code } :=
    ⟨iff_of_true (by simp) hl, rfl, rfl, rfl, rfl, rfl, rfl, rfl, rfl, rfl⟩
  hsame.setProc j

theorem Valid.sysExit (hk : k.Valid L F) (hl : k.Live k.cur) : (k.sysExit code).Valid L F :=
  hk.relabel rfl (sysExit_same hl)
    ⟨hk.globals.stackTop, hk.globals.stackBottom, hk.globals.heapStart, hk.globals.heapEnd⟩

theorem setInbox_same (i : Fin procsMax) (msg : IpcMessage) (j : Fin procsMax) :
    Same (k.procs j) ((k.setInbox i msg).procs j) :=
  have hsame : Same (k.procs i) { k.procs i with inbox := msg } :=
    ⟨Iff.rfl, rfl, rfl, rfl, rfl, rfl, rfl, rfl, rfl, rfl⟩
  hsame.setProc j

end Kernel

/-! ## `sys_sbrk` -/

/-- Every page of an extended space was in it before or was available. -/
theorem Extend.inSpace {root : Nat} (h : Extend L o s F root s' F' S C)
    (hpg : InSpace s'.mem root pg) : InSpace s.mem root pg ∨ Avail L s F pg := by
  obtain ⟨q, hq⟩ := hpg
  rcases spaceAt_cases hq with ht | ⟨v, _, hv⟩
  · exact (h.new q pg ht).imp_left fun ht => IsTable.inSpace ⟨q, ht⟩
  · by_cases hs : S v
    · obtain ⟨pg', hl, hav⟩ := h.leaf v hs
      obtain rfl : pg = pg' := Option.some.inj (hv.symm.trans hl.frame)
      exact .inr hav
    · rw [h.same v hs] at hv
      exact .inl (inSpace_of_frame hv)

/-- A process whose space gets fresh pages, taken for its own pid. -/
theorem ProcOk.extend (h : ProcOk L s F i p) (ht : TrackOk L s F) (hpt : p.pageTable ≠ 0)
    (he : Extend L p.pid s F p.pageTable s' F' S C) (n : Nat) :
    ProcOk L s' F' i { p with heapEnd := n } := by
  have hold : ∀ r pg, p.holds L s.mem i r = some pg → ¬Avail L s' F' pg := fun r pg hr hav =>
    (h.page r pg hr).2 (he.grows.avail pg hav)
  have hnot : ∀ r pg, p.holds L s.mem i r = some pg → (∀ q, r ≠ .space q) →
      ¬InSpace s'.mem p.pageTable pg := by
    intro r pg hr hne hsp
    rcases he.inSpace hsp with ⟨q, hq⟩ | hav
    · exact hne q (h.inj _ _ pg hr ((Proc.holds_space hpt q).trans hq))
    · exact (h.page r pg hr).2 hav
  have htf : p.tf ≠ L.tfStackFrame i → p.holds L s.mem i .tf = some p.tf := fun hne => if_neg hne
  have himg : p.imagePa ≠ 0 → ∀ pg, InBlock p.imagePa p.imageNpages pg →
      ∃ n, p.holds L s.mem i (.image n) = some pg := by
    rintro hne pg ⟨n, hn, rfl⟩
    exact ⟨n, if_pos ⟨hne, hn⟩⟩
  refine .of_parts (fun _ => ⟨he.space, (h.map hpt).extend he⟩) (fun hne => ?_) (fun hne pg hpg => ?_)
    (fun r pg e hr hu hp => ?_) h.pid h.parent
  · have hh := htf hne
    exact ⟨(h.page _ _ hh).1, hold _ _ hh, fun _ => hnot _ _ hh (by simp)⟩
  · obtain ⟨n, hn⟩ := himg hne pg hpg
    refine ⟨(h.page _ _ hn).1, hold _ _ hn, fun _ => hnot _ _ hn (by simp), fun hne' he' => ?_⟩
    cases h.inj _ _ pg hn (he' ▸ htf hne')
  · -- a page that the process did not hold before was available
    have hwas : (∃ r', p.holds L s.mem i r' = some pg) ∨ Avail L s F pg := by
      cases r with
      | space q =>
          refine (he.inSpace ⟨q, (Proc.holds_space_some hr).2⟩).imp_left fun ⟨q', hq'⟩ => ?_
          exact ⟨_, (Proc.holds_space hpt q').trans hq'⟩
      | tf => exact .inl ⟨.tf, hr⟩
      | image n => exact .inl ⟨.image n, hr⟩
    rcases hwas with ⟨r', hr'⟩ | hav
    · rcases he.grows.new e hu with heq | ⟨_, hav⟩
      · rw [heq] at hu hp ⊢
        exact h.owner r' pg e hr' hu hp
      · exact absurd (hp ▸ hav) (h.page r' pg hr').2
    · exact .inl (he.grows.owner_eq ht hu (hp ▸ hav))

namespace Kernel

/-- The pages that `sys_sbrk` maps. -/
def SbrkPage (oldHeap newHeap : Nat) (v : Vpn) : Prop :=
  ∃ i < Phys.pagesUpTo (pgRoundUp oldHeap) newHeap, v = vpn (pgRoundUp oldHeap + 4096 * i)

/-- What `sys_sbrk` does: the space of the caller gets fresh pages, and `heap_end` is moved. -/
structure Sbrked (L : Layout) (k : Kernel) (F : List Nat) (inc : Int) (k' : Kernel) (F' : List Nat) :
    Prop where
  extend : Extend L k.owner k.phys F (k.procs k.cur).pageTable k'.phys F'
    (fun v => 0 < inc ∧ SbrkPage (k.procs k.cur).heapEnd
      (((k.procs k.cur).heapEnd + inc) % 2 ^ 64).toNat v) fun _ _ b => b = 0
  leaves : NewLeaves (pteU ||| pteR ||| pteW ||| pteV)
    (fun v => 0 < inc ∧ SbrkPage (k.procs k.cur).heapEnd (((k.procs k.cur).heapEnd + inc) % 2 ^ 64).toNat v)
    (leafAt k.phys.mem (k.procs k.cur).pageTable) (leafAt k'.phys.mem (k.procs k.cur).pageTable)
  state : k' = { k with phys := k'.phys }.setProc k.cur
    { k.procs k.cur with heapEnd := (((k.procs k.cur).heapEnd + inc) % 2 ^ 64).toNat }

theorem sysSbrk_spec (hk : k.Inv L F) (hl : k.Live k.cur) (hpt : (k.procs k.cur).pageTable ≠ 0)
    (h : k.sysSbrk L inc = .ok (ret, k')) :
    ret = .value (k.procs k.cur).heapEnd ∧ ∃ F', Sbrked L k F inc k' F' := by
  have he := Extend.refl (o := k.owner) (C := fun _ _ b => b = 0) hk.ok hk.track
    ((hk.proc _ hl).spaceOk hpt)
  simp only [sysSbrk] at h
  split at h
  · rename_i hinc
    simp only [bind_eq_ok, Except.ok.injEq, Prod.mk.injEq] at h
    obtain ⟨s, h1, rfl, rfl⟩ := h
    obtain ⟨F', he, hn⟩ := he.mapLoop (by decide) (by decide) (by decide) (f := fun _ => some (0, 0))
      (fun _ _ _ _ _ => rfl) (fun _ _ _ i _ a n ha => by
        simp only [Option.some.injEq, Prod.mk.injEq] at ha
        obtain ⟨-, rfl⟩ := ha
        exact ⟨Nat.zero_le _, fun x _ => if_neg (Nat.not_lt_zero x)⟩) h1
    refine ⟨rfl, F', he.pages fun v => ?_, hn.pages fun v => ?_, rfl⟩ <;> simp [loopPages, SbrkPage, hinc]
  · rename_i hinc
    simp only [Except.ok.injEq, Prod.mk.injEq] at h
    obtain ⟨rfl, rfl⟩ := h
    refine ⟨rfl, F, he.pages fun v => ?_, NewLeaves.refl.pages fun v => ?_, rfl⟩ <;> simp [hinc]

theorem cur_eq (h : k.currentProc = some i) : k.cur = i := by rw [cur, h, Option.getD_some]

theorem owner_eq (h : k.currentProc = some i) : k.owner = (k.procs i).pid := by
  rw [owner, h, Option.map_some, Option.getD_some]

theorem Valid.sysSbrk (hk : k.Valid L F) (hc : k.currentProc = some i) (hl : k.Live i)
    (h : k.sysSbrk L inc = .ok (ret, k')) : ∃ F', k'.Valid L F' := by
  obtain rfl := cur_eq hc
  have hpt := hk.full _ hl
  obtain ⟨_, F', hs⟩ := sysSbrk_spec hk.toInv hl hpt h
  have he := hs.extend
  rw [owner_eq hc] at he
  have hp := (hk.proc _ hl).extend hk.track hpt he (((k.procs k.cur).heapEnd + inc) % 2 ^ 64).toNat
  have hprocs : k'.procs = Function.update k.procs k.cur
      { k.procs k.cur with heapEnd := (((k.procs k.cur).heapEnd + inc) % 2 ^ 64).toNat } := by
    rw [hs.state]
    rfl
  refine ⟨F', hk.update (hk.grow he.grows rfl hprocs (fun pg hpg i hi hli hpti ht => ?_) (fun _ => hp)
    fun _ r pg hr => ?_) hprocs (fun _ => hpt) (fun _ => hk.stack _ hl) (fun h0 => ?_) ?_⟩
  · obtain ⟨q, hq⟩ := holds_space (L := L) hli hpti ht.inSpace
    obtain ⟨q', hq'⟩ := holds_space (L := L) hl hpt hpg.inSpace
    exact hi (hk.apart _ _ _ _ pg hq hq')
  · cases r with
    | space q =>
        exact (he.inSpace ⟨q, (Proc.holds_space_some hr).2⟩).imp_left fun hsp =>
          have ⟨q', hq'⟩ := holds_space (L := L) hl hpt hsp
          ⟨_, hq'⟩
    | tf => exact .inl ⟨.tf, hl, hr⟩
    | image n => exact .inl ⟨.image n, hl, hr⟩
  · have := hk.idle
    rw [← h0] at this
    exact this
  · rw [hs.state]
    exact ⟨hk.globals.stackTop, hk.globals.stackBottom, hk.globals.heapStart, hk.globals.heapEnd⟩

end Kernel

end RiscvOs
