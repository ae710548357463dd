import RiscvOs.Lemmas.Loader

/-!
# The maps of the processes

What a timer interrupt, `sys_sbrk`, `sys_fork` and `sys_exec` do to the leaf entries of each process. An
invariant about maps follows from these cases.
-/

namespace RiscvOs

open ByteMem Outcome Kernel

variable {L : Layout} {k k' k'' : Kernel} {F F' : List Nat} {i c : Fin procsMax} {m : Mem} {f : Frame}
  {s s' : Machine} {t : Trap} {fs : Initramfs} {inc : Int} {ret : SysRet}

namespace Kernel

/-- The leaf entries of process `i`. -/
def map (k : Kernel) (i : Fin procsMax) : Vpn → Nat := leafAt k.phys.mem (k.procs i).pageTable

/-! ## Steps that keep a map -/

/-- Process `i` keeps its map, its break and its stack, and it stays alive or dead. -/
structure SameMap (k k' : Kernel) (i : Fin procsMax) : Prop where
  live : k'.Live i ↔ k.Live i
  map : k.Live i → k'.map i = k.map i
  heapEnd : k.Live i → (k'.procs i).heapEnd = (k.procs i).heapEnd
  userStackTop : k.Live i → (k'.procs i).userStackTop = (k.procs i).userStackTop

theorem SameMap.refl (k : Kernel) (i : Fin procsMax) : SameMap k k i :=
  ⟨Iff.rfl, fun _ => rfl, fun _ => rfl, fun _ => rfl⟩

theorem SameMap.trans (h : SameMap k k' i) (h' : SameMap k' k'' i) : SameMap k k'' i where
  live := h'.live.trans h.live
  map hl := (h'.map (h.live.mpr hl)).trans (h.map hl)
  heapEnd hl := (h'.heapEnd (h.live.mpr hl)).trans (h.heapEnd hl)
  userStackTop hl := (h'.userStackTop (h.live.mpr hl)).trans (h.userStackTop hl)

/-- A step that writes to no table of the process. -/
theorem SameMap.of_tables (hk : k.Valid L F) (hs : Same (k.procs i) (k'.procs i))
    (hm : k.Live i → ∀ a, IsTable k.phys.mem (k.procs i).pageTable (pageOf a) → k'.phys.mem a = k.phys.mem a) :
    SameMap k k' i where
  live := hs.live
  map hl := by
    unfold Kernel.map
    rw [hs.pageTable]
    exact leafAt_congr (hm hl) fun pg => ((hk.proc i hl).spaceOk (hk.full i hl)).tables.aligned
  heapEnd _ := hs.heapEnd
  userStackTop _ := hs.userStackTop

theorem UserWrites.sameMap (h : UserWrites k c k') (hk : k.Valid L F) (hl : k.Live c) (i : Fin procsMax) :
    SameMap k k' i :=
  .of_tables hk (by rw [h.procs]; exact .refl _) fun hli _ ha =>
    h.table hk.toInv hl (hk.full c hl) hli (hk.full i hli) ha

theorem Valid.enter_sameMap (hk : k.Valid L F) (hl : k.Live c) (i : Fin procsMax) :
    SameMap k (k.enter L c f) i :=
  .of_tables hk (.refl _) fun hli _ ha => enter_mem (hk.proc c hl) hl fun htf =>
    (hk.tfPages_table htf).2 i hli (hk.full i hli) ha

/-- A store below free RAM. -/
theorem Valid.setResult_sameMap (hk : k.Valid L F) (a0 : Nat) (i : Fin procsMax) :
    SameMap k (Machine.setResult L k c a0) i :=
  .of_tables hk (.refl _) fun hli a ha => store64_outside (by
    have := (((hk.proc i hli).spaceOk (hk.full i hli)).page _ ha.inSpace).1.ge
    have := Nat.div_mul_le_self a 4096
    have := tfStackFrame_lt L c
    unfold pageOf tfA0 frameSize at *
    omega)

theorem Valid.yield_sameMap (hk : k.Valid L F) (i : Fin procsMax) : SameMap k (k.yield L).1 i :=
  .of_tables hk (yield_same L k i) fun _ _ _ => by rw [yield_phys]

/-! ## Steps that change a map -/

/-- `sys_sbrk` maps fresh pages from the old break to the new one. -/
structure Grown (k : Kernel) (c : Fin procsMax) (inc : Int) (k' : Kernel) : Prop where
  others : ∀ i, i ≠ c → SameMap k k' i
  live : k'.Live c
  heapEnd : (k'.procs c).heapEnd = (((k.procs c).heapEnd + inc) % 2 ^ 64).toNat
  userStackTop : (k'.procs c).userStackTop = (k.procs c).userStackTop
  leaves : NewLeaves (pteU ||| pteR ||| pteW ||| pteV)
    (fun v => 0 < inc ∧ SbrkPage (k.procs c).heapEnd (((k.procs c).heapEnd + inc) % 2 ^ 64).toNat v)
    (k.map c) (k'.map c)
  user : ∀ v, 0 < inc → SbrkPage (k.procs c).heapEnd (((k.procs c).heapEnd + inc) % 2 ^ 64).toNat v →
    ∃ pg, UserLeaf (k'.map c v) pg

/-- A step that keeps the map of a process. -/
theorem Initial.congr (hi : k.Initial i) (h : SameMap k k' i) (hl : k.Live i) : k'.Initial i := by
  have hm := h.map hl
  refine ⟨(h.heapEnd hl).trans hi.heap, (h.userStackTop hl).trans hi.top, fun v pg hv => hi.user v pg ?_⟩
  unfold Kernel.map at hm
  rwa [hm] at hv

/-- `sys_fork` maps a copy of every page of the caller in the child, with all rights. -/
structure Copied (k : Kernel) (c i : Fin procsMax) (k' : Kernel) : Prop where
  others : ∀ j, j ≠ i → SameMap k k' j
  live : k'.Live i
  heapEnd : (k'.procs i).heapEnd = (k.procs c).heapEnd
  leaf : ∀ v, k.CopyPage v → CodeLeaf (k'.map i v)
  rest : ∀ v, ¬k.CopyPage v → userFrame (k'.map i v) = none

/-- `sys_exec` gives the caller the map of a new program. -/
structure Renewed (L : Layout) (k : Kernel) (c : Fin procsMax) (k' : Kernel) : Prop where
  others : ∀ i, i ≠ c → SameMap k k' i
  live : k'.Live c
  heapEnd : (k'.procs c).heapEnd = 0x3001000
  userStackTop : (k'.procs c).userStackTop = 0x1020000
  identity : ∀ pa, IdentityPage L pa → k'.map c (vpn pa) = identityEntry pa
  user : ∀ v pg, userFrame (k'.map c v) = some pg → InitPage v
  data : ∀ v, DataPage 0x1020000 0x1010000 0x3000000 v → DataLeaf (k'.map c v)

/-- Before and after the step, steps that keep all maps. -/
theorem Grown.congr {k₁ k₂ : Kernel} (h : Grown k₁ c inc k₂) (hl : k.Live c) (h1 : ∀ i, SameMap k k₁ i)
    (h2 : ∀ i, SameMap k₂ k' i) : Grown k c inc k' := by
  have hm2 := (h2 c).map h.live
  have hh1 := (h1 c).heapEnd hl
  refine ⟨fun i hi => ((h1 i).trans (h.others i hi)).trans (h2 i), (h2 c).live.mpr h.live, ?_, ?_, ?_, ?_⟩
  · rw [(h2 c).heapEnd h.live, h.heapEnd, hh1]
  · rw [(h2 c).userStackTop h.live, h.userStackTop, (h1 c).userStackTop hl]
  · rw [hm2, ← hh1, ← (h1 c).map hl]
    exact h.leaves
  · rw [hm2, ← hh1]
    exact h.user

theorem Copied.congr {k₁ k₂ : Kernel} (h : Copied k₁ c i k₂) (hl : k.Live c)
    (hcopy : ∀ v, k₁.CopyPage v ↔ k.CopyPage v) (h1 : ∀ i, SameMap k k₁ i) (h2 : ∀ i, SameMap k₂ k' i) :
    Copied k c i k' := by
  have hm2 := (h2 i).map h.live
  refine ⟨fun j hj => ((h1 j).trans (h.others j hj)).trans (h2 j), (h2 i).live.mpr h.live, ?_, ?_, ?_⟩
  · rw [(h2 i).heapEnd h.live, h.heapEnd, (h1 c).heapEnd hl]
  · rw [hm2]
    exact fun v hv => h.leaf v ((hcopy v).mpr hv)
  · rw [hm2]
    exact fun v hv => h.rest v fun h1 => hv ((hcopy v).mp h1)

theorem Renewed.congr {k₁ k₂ : Kernel} (h : Renewed L k₁ c k₂) (h1 : ∀ i, SameMap k k₁ i)
    (h2 : ∀ i, SameMap k₂ k' i) : Renewed L k c k' := by
  have hm2 := (h2 c).map h.live
  refine ⟨fun i hi => ((h1 i).trans (h.others i hi)).trans (h2 i), (h2 c).live.mpr h.live, ?_, ?_, ?_, ?_, ?_⟩
  · rw [(h2 c).heapEnd h.live, h.heapEnd]
  · rw [(h2 c).userStackTop h.live, h.userStackTop]
  · rw [hm2]
    exact h.identity
  · rw [hm2]
    exact h.user
  · rw [hm2]
    exact h.data

/-- The pages that `sys_fork` copies depend on the map of the caller only. -/
theorem copyPage_congr (hcur : k'.cur = k.cur) (hprocs : k'.procs = k.procs)
    (hm : k'.map k.cur = k.map k.cur) (v : Vpn) : k'.CopyPage v ↔ k.CopyPage v := by
  unfold Kernel.map at hm
  rw [hprocs] at hm
  unfold CopyPage loopPages
  rw [hcur, hprocs]
  simp only [forkSource_congr hm]

end Kernel

namespace Kernel.Running

variable (h : Running L k F c)
include h

theorem sysSbrk_grown (hs : k.sysSbrk L inc = .ok (ret, k')) :
    ret = .value (k.procs c).heapEnd ∧ Grown k c inc k' ∧ ∃ F', Running L k' F' c := by
  have hcur := h.cur
  have hl : k.Live k.cur := hcur.symm ▸ h.live
  obtain ⟨F', hv⟩ := h.toValid.sysSbrk h.current h.live hs
  obtain ⟨hret, F₁, hsb⟩ := sysSbrk_spec h.toInv hl (h.full _ hl) hs
  rw [hcur] at hret
  have hself : k'.procs c = { k.procs c with heapEnd := (((k.procs c).heapEnd + inc) % 2 ^ 64).toNat } := by
    rw [hsb.state, hcur]
    exact setProc_procs_self
  have hpt : (k'.procs c).pageTable = (k.procs c).pageTable := by rw [hself]
  have hlive : k'.Live c := by
    rw [Live, hself]
    exact h.live
  refine ⟨hret, ⟨fun i hi => ?_, hlive, by rw [hself], by rw [hself], ?_, fun v h0 hv => ?_⟩, F', hv, ?_, hlive,
    ?_, ?_⟩
  · have hp : k'.procs i = k.procs i := by
      rw [hsb.state, hcur]
      exact setProc_procs_of_ne hi
    refine .of_tables h.toValid (by rw [hp]; exact .refl _) fun hli a ha => ?_
    refine hsb.extend.grows.mem a (((h.proc i hli).spaceOk (h.full i hli)).page _ ha.inSpace).2 fun ht => hi ?_
    obtain ⟨q, hq⟩ := holds_space (L := L) hli (h.full i hli) ha.inSpace
    obtain ⟨q', hq'⟩ := holds_space (L := L) hl (h.full _ hl) ht.inSpace
    rw [← hcur]
    exact h.apart _ _ _ _ _ hq hq'
  · have hn := hsb.leaves
    rw [hcur] at hn
    unfold Kernel.map
    rwa [hpt]
  · have hleaf := hsb.extend.leaf v
    rw [hcur] at hleaf
    obtain ⟨pg, hpg, _⟩ := hleaf ⟨h0, hv⟩
    exact ⟨pg, by unfold Kernel.map; rwa [hpt]⟩
  · rw [hsb.state]
    exact h.current
  · rw [hpt, hsb.state]
    exact h.active
  · rw [hsb.state]
    exact h.idleProc

theorem sysFork_copied (hs : k.sysFork L = .ok (ret, k')) :
    (k.freeSlot = none ∧ k' = k ∨ ∃ i, k.freeSlot = some i ∧ Copied k c i k') ∧ ∃ F', Running L k' F' c := by
  have hcur := h.cur
  have hl : k.Live k.cur := hcur.symm ▸ h.live
  obtain ⟨F', hv⟩ := h.toValid.sysFork hl (hcur.symm ▸ h.current) hs
  rcases sysFork_spec h.toInv hl (h.full _ hl) hs with ⟨hfull, _, rfl⟩ | ⟨i, tf, root, F₁, _, hf⟩
  · exact ⟨.inl ⟨hfull, rfl⟩, F, h⟩
  have hself : k'.procs i = k.forkChild i tf root := by
    rw [hf.state]
    exact setProc_procs_self
  have hother : ∀ j, j ≠ i → k'.procs j = k.procs j := fun j hj => by
    rw [hf.state]
    exact setProc_procs_of_ne hj
  have hci : c ≠ i := fun he => freeSlot_unused hf.slot (he ▸ h.live)
  refine ⟨.inr ⟨i, hf.slot, fun j hj => ?_, ?_, ?_, fun v hv => ?_, fun v hv => ?_⟩, F', hv, ?_, ?_, ?_, ?_⟩
  · refine .of_tables h.toValid (by rw [hother j hj]; exact .refl _) fun hlj a ha => ?_
    exact h.toInv.space_grows hlj (h.full j hlj) hf.grows ha.inSpace
  · rw [Live, hself]
    simp [forkChild]
  · rw [hself, ← hcur]
    rfl
  · unfold Kernel.map
    rw [hself]
    exact hf.leaf v hv
  · unfold Kernel.map
    rw [hself]
    exact hf.rest v hv
  · rw [hf.state]
    exact h.current
  · rw [Live, hother c hci]
    exact h.live
  · rw [hother c hci, hf.state]
    exact h.active
  · rw [hf.state]
    exact h.idleProc

/-- After a `yield` some process runs. -/
theorem yield : ∃ c', Running L (k.yield L).1 F c' := by
  by_cases hs : k.table.Switches
  · exact ⟨_, h.yield_switch hs⟩
  · exact ⟨c, h.yield_stay hs⟩

theorem sysExec_renewed {filename argv : Nat} {argc : Int} (hfs : ∀ f ∈ fs, f.2.Linked)
    (hs : k.sysExec L fs filename argv argc = .ok (ret, k')) :
    (k.tarfsLookup filename fs = .ok none ∧ k' = k ∨
      ∃ elf, k.tarfsLookup filename fs = .ok (some elf) ∧ Renewed L k c k') ∧
    (∃ F' c', Running L k' F' c') ∧ ∀ a0, ret = .value a0 → ∃ F', Running L k' F' c := by
  rcases sysExec_cases h.toValid h.current h.live hfs hs with ⟨hn, _, rfl⟩ | ⟨elf, k₁, F₁, he, hx, rfl, hret⟩
  · exact ⟨.inl ⟨hn, rfl⟩, ⟨F, c, h⟩, fun _ _ => ⟨F, h⟩⟩
  have hr : Running L k₁ F₁ c :=
    ⟨hx.valid, hx.current, hx.live, hx.active, hx.idleProc.trans h.idleProc⟩
  obtain ⟨c', hc'⟩ := hr.yield
  refine ⟨.inr ⟨elf, he, ?_⟩, ⟨F₁, c', hc'⟩, fun a0 ha => ?_⟩
  · have hren : Renewed L k c k₁ := by
      refine ⟨fun i hi => ?_, hx.live, hx.heapEnd, hx.userStackTop, hx.identity, hx.user, hx.data⟩
      refine .of_tables h.toValid (by rw [hx.others i hi]; exact .refl _) fun hli a ha => ?_
      exact hx.spares.space h.toInv hi hli (h.full i hli) ha.inSpace
    exact hren.congr (fun i => .refl k i) hx.valid.yield_sameMap
  · have hno : ¬k₁.table.Switches := fun hsw => by
      rw [yield_switched, decide_eq_true hsw, if_pos rfl] at hret
      rw [hret] at ha
      cases ha
    exact ⟨F₁, hr.yield_stay hno⟩

end Kernel.Running

/-! ## Traps -/

/-- The call that a trap makes, if any. -/
def Trap.request (t : Trap) : Option Call :=
  match t.cause with
  | .timer => none
  | .ecall => callOf t.frame

/-- The calls that map or unmap pages while no process exits. -/
def Call.Maps : Call → Prop
  | .sbrk _ | .fork | .exec _ _ _ => True
  | _ => False

/-- The timer, or one of these calls. -/
def Trap.Maps (t : Trap) : Prop := ∀ call, t.request = some call → call.Maps

namespace Machine

/-- What such a trap of process `c` does to the maps. -/
inductive Remaps (L : Layout) (fs : Initramfs) (s : Machine) (c : Fin procsMax) (t : Trap) (s' : Machine) : Prop
  | timer (h : t.request = none) (same : ∀ i, SameMap s.kernel s'.kernel i)
  | sbrk {inc : Int} (h : t.request = some (.sbrk inc)) (grown : Grown s.kernel c inc s'.kernel)
      (current : s'.kernel.currentProc = some c)
      (result : s'.user 10 = BitVec.ofNat 64 (s.kernel.procs c).heapEnd)
  | forkNone (h : t.request = some .fork) (full : s.kernel.freeSlot = none)
      (same : ∀ i, SameMap s.kernel s'.kernel i)
  | fork {i : Fin procsMax} (h : t.request = some .fork) (slot : s.kernel.freeSlot = some i)
      (copied : Copied s.kernel c i s'.kernel)
  | execNone {filename argv : Nat} {argc : Int} (h : t.request = some (.exec filename argv argc))
      (lookup : (s.inKernel L t).tarfsLookup filename fs = .ok none) (same : ∀ i, SameMap s.kernel s'.kernel i)
  | exec {filename argv : Nat} {argc : Int} {elf : Elf} (h : t.request = some (.exec filename argv argc))
      (lookup : (s.inKernel L t).tarfsLookup filename fs = .ok (some elf))
      (renewed : Renewed L s.kernel c s'.kernel)

theorem Runs.inKernel_sameMap (hr : s.Runs L t) (h : Running L s.kernel F c) (i : Fin procsMax) :
    SameMap s.kernel (s.inKernel L t) i := by
  have hw := hr.userWrites h
  have hv : Running L (s.atTrap t) F c := h.userWrites hw
  unfold Machine.inKernel
  rw [h.cur]
  exact (hw.sameMap h.toValid h.live i).trans (hv.toValid.enter_sameMap hv.live i)

theorem inKernel_procs : (s.inKernel L t).procs = s.kernel.procs := rfl

theorem Runs.inKernel_freeSlot : (s.inKernel L t).freeSlot = s.kernel.freeSlot := rfl

theorem Runs.inKernel_copyPage (hr : s.Runs L t) (h : Running L s.kernel F c) (v : Vpn) :
    (s.inKernel L t).CopyPage v ↔ s.kernel.CopyPage v := by
  refine copyPage_congr ((hr.inKernel h).cur.trans h.cur.symm) rfl ?_ v
  rw [h.cur]
  exact (hr.inKernel_sameMap h c).map h.live

/-- The result of a call is in `a0` when the process goes on. -/
theorem goOn_a0 {input : List UInt8} {sstatus sepc : BitVec 64} {a0 : Nat} :
    (goOn L (setResult L k c a0) c input sstatus sepc).user 10 = BitVec.ofNat 64 a0 := by
  show epilogue L (setTfWord k.phys.mem (L.tfStackFrame c) tfA0 a0) c sepc 10 = _
  unfold epilogue
  rw [Function.update_of_ne (by decide), loadFrame_setTfWord (by decide)]
  exact Function.update_self _ _ _

/-- Such a trap does to the maps what its call does, and then some process runs. -/
theorem Step.remaps (hfs : ∀ f ∈ fs, f.2.Linked) (hr : Running L s.kernel F c) (hm : t.Maps)
    (h : s.Step L fs t s') : Remaps L fs s c t s' ∧ ∃ F' c', Running L s'.kernel F' c' := by
  obtain ⟨hruns, htrap⟩ := h
  have hk := hruns.inKernel hr
  have h1 := hruns.inKernel_sameMap hr
  have hcur := hr.cur
  unfold trap at htrap
  cases hc : t.cause with
  | timer =>
      have hreq : t.request = none := by rw [Trap.request, hc]
      simp only [hc, Except.ok.injEq] at htrap
      have hs' : s'.kernel = ((s.inKernel L t).yield L).1 := by
        rw [← htrap]
        split <;> rfl
      rw [hs']
      obtain ⟨c', hc'⟩ := hk.yield
      exact ⟨.timer hreq (by rw [hs']; exact fun i => (h1 i).trans (hk.toValid.yield_sameMap i)), F, c', hc'⟩
  | ecall =>
      simp only [hc] at htrap
      split at htrap
      · cases htrap
      · rename_i call hcall
        have hreq : t.request = some call := by rw [Trap.request, hc, hcall]
        simp only [bind_eq_ok, Prod.exists] at htrap
        obtain ⟨ret, k', input, h2, htrap⟩ := htrap
        have hmaps := hm call hreq
        cases call with
        | sbrk inc =>
            simp only [Kernel.handleSyscall, bind_eq_ok, Prod.exists, Except.ok.injEq, Prod.mk.injEq] at h2
            obtain ⟨ret, k', h2, rfl, rfl, _⟩ := h2
            obtain ⟨rfl, hg, F', hr'⟩ := hk.sysSbrk_grown h2
            rw [hcur] at htrap
            rw [← Except.ok.inj htrap]
            have hres := hr'.setResult ((s.inKernel L t).procs c).heapEnd
            exact ⟨.sbrk hreq (hg.congr hr.live h1 (hr'.toValid.setResult_sameMap _)) hres.current goOn_a0,
              F', c, hres⟩
        | fork =>
            simp only [Kernel.handleSyscall, bind_eq_ok, Prod.exists, Except.ok.injEq, Prod.mk.injEq] at h2
            obtain ⟨ret, k', h2, rfl, rfl, _⟩ := h2
            obtain ⟨hcase, F', hr'⟩ := hk.sysFork_copied h2
            have hs' : ∃ a0, s'.kernel = setResult L k' c a0 := by
              rcases Kernel.sysFork_table h2 with ⟨_, rfl, _⟩ | ⟨_, _, rfl, _⟩ <;>
                exact ⟨_, by rw [← Except.ok.inj htrap, hcur]; rfl⟩
            obtain ⟨a0, hs'⟩ := hs'
            rw [hs']
            have h3 := hr'.toValid.setResult_sameMap (c := c) a0
            refine ⟨?_, F', c, hr'.setResult a0⟩
            rcases hcase with ⟨hfull, rfl⟩ | ⟨i, hslot, hcopied⟩
            · exact .forkNone hreq hfull (by rw [hs']; exact fun i => (h1 i).trans (h3 i))
            · refine .fork hreq hslot (i := i) ?_
              rw [hs']
              exact hcopied.congr hr.live (hruns.inKernel_copyPage hr) h1 h3
        | exec filename argv argc =>
            simp only [Kernel.handleSyscall, bind_eq_ok, Prod.exists, Except.ok.injEq, Prod.mk.injEq] at h2
            obtain ⟨ret, k', h2, rfl, rfl, _⟩ := h2
            obtain ⟨hcase, ⟨F₁, c₁, hr₁⟩, hval⟩ := hk.sysExec_renewed hfs h2
            have hs' : (∀ i, SameMap k' s'.kernel i) ∧ ∃ F' c', Running L s'.kernel F' c' := by
              cases hret : ret with
              | switched =>
                  simp only [hret, Except.ok.injEq] at htrap
                  rw [← htrap]
                  exact ⟨fun i => .refl k' i, F₁, c₁, hr₁⟩
              | value a0 =>
                  simp only [hret, Except.ok.injEq, hcur] at htrap
                  obtain ⟨F', hr'⟩ := hval a0 hret
                  rw [← htrap]
                  exact ⟨hr'.toValid.setResult_sameMap a0, F', c, hr'.setResult a0⟩
            refine ⟨?_, hs'.2⟩
            rcases hcase with ⟨hnone, rfl⟩ | ⟨elf, hsome, hren⟩
            · exact .execNone hreq hnone fun i => (h1 i).trans (hs'.1 i)
            · exact .exec hreq hsome (hren.congr h1 hs'.1)
        | _ => exact hmaps.elim

/-- The process may fork where its program is as it was loaded. -/
theorem Free.fork (fs : Initramfs) (h : Free L s F c) (hi : s.kernel.Initial c) (hslot : s.kernel.freeSlot = some i)
    (hr : 2567 ≤ s.kernel.phys.room L) : ∃ t s' F', s.Step L fs t s' ∧ t.request = some .fork ∧ Free L s' F' c ∧
      s'.kernel.Initial c ∧ s.kernel.phys.room L ≤ s'.kernel.phys.room L + 2565 ∧
      s'.kernel.table = s.kernel.table.fork i ∧ HasCode (s.inKernel L t) c (program []) ∧
      t.frame tfPc = BitVec.ofNat 64 userBase := by
  obtain ⟨t, ht, -⟩ := h.call 220 0 0 0 [] []
  have hcall : callOf t.frame = some .fork := by
    rw [ht.frame]
    decide
  have hcur := ht.running.cur
  have hl : (s.inKernel L t).Live (s.inKernel L t).cur := hcur.symm ▸ ht.running.live
  have hsame := ht.runs.inKernel_sameMap h.running c
  have hinit : (s.inKernel L t).Initial c := hi.congr hsame h.running.live
  obtain ⟨k', hfork, hroom⟩ := (hcur.symm ▸ hinit : (s.inKernel L t).Initial (s.inKernel L t).cur).fork_total
    ht.running.toInv hl (ht.running.full _ hl) ((Runs.inKernel_freeSlot (L := L) (s := s) (t := t)).trans hslot) hr
  have hhandle : (s.inKernel L t).handleSyscall L fs s.input t.now .fork = .ok (.value (i + 1), k', s.input) := by
    simp only [Kernel.handleSyscall, hfork, ok_bind]
  have htrap := trap_value ht.cause hcall hhandle
  rw [h.running.cur] at htrap
  -- the pages of the parent stay
  have hcode : HasCode k' c (program []) := by
    rcases sysFork_spec ht.running.toInv hl (ht.running.full _ hl) hfork with ⟨-, hret, -⟩ | ⟨j, _, _, F₁, _, hf⟩
    · have hi := i.isLt
      exact absurd (SysRet.value.inj hret) (by unfold neg64 procsMax at *; omega)
    · have hcj : c ≠ j := fun he => freeSlot_unused hf.slot (he ▸ ht.running.live)
      refine ht.code.congr ht.running.procOk ht.running.pageTable ?_ fun a ha =>
        ht.running.toInv.space_grows ht.running.live ht.running.pageTable hf.grows ha
      rw [hf.state]
      exact congrArg Proc.pageTable (setProc_procs_of_ne hcj)
  obtain ⟨hcase, F', hr'⟩ := ht.running.sysFork_copied hfork
  have hothers : SameMap (s.inKernel L t) k' c := by
    rcases hcase with ⟨-, rfl⟩ | ⟨j, hj, hcopied⟩
    · exact .refl _ _
    · exact hcopied.others c fun he => freeSlot_unused hj (he ▸ ht.running.live)
  have htable : k'.table = s.kernel.table.fork i := by
    have hk := inKernel_table (L := L) (t := t) (by rw [h.running.current]; rfl : s.kernel.currentProc.isSome)
    rcases Kernel.sysFork_table hfork with ⟨hn, -, -⟩ | ⟨j, hj, -, hk'⟩
    · rw [hk] at hn
      exact absurd (hn.symm.trans hslot) (by simp)
    · rw [hk] at hj hk'
      rw [hk', Option.some.inj (hj.symm.trans hslot)]
  refine ⟨t, _, F', ⟨ht.runs, htrap⟩, by rw [Trap.request, ht.cause, hcall], ht.goOn hr' hcode, ?_, hroom, htable,
    ht.code, by rw [ht.frame, callFrame_pc]⟩
  exact (hinit.congr hothers ht.running.live).congr (hr'.toValid.setResult_sameMap (i + 1) c) hr'.live

end Machine

end RiscvOs
