import RiscvOs.Theorems.Status

/-!
# The area of the heap

Sequences of calls of `sys_sbrk`. The kernel checks neither that the break stays between `__user_heap_start` and
`__user_heap_end`, nor that a page is not mapped yet: what is promised of the heap holds exactly where the increments
keep to it.
-/

namespace RiscvOs

open ByteMem Outcome Kernel Lts

variable {L : Layout} {k k' k₀ : Kernel} {F F' : List Nat} {i c : Fin procsMax} {inc : Int} {l : List Int}
  {a va pg : Nat} {v : Vpn} {ret : SysRet}

namespace Kernel

/-- `heap_end` of the process that runs. -/
def brk (k : Kernel) : Nat := (k.procs k.cur).heapEnd

/-- The break is one of the heap's area. -/
def InArea (k : Kernel) (brk : Int) : Prop := k.gUserHeapStart ≤ brk ∧ brk ≤ k.gUserHeapEnd

/-- A call of `sys_sbrk` that returns; the increment is a signed number of 64 bits. -/
def SbrkStep (L : Layout) (k : Kernel) (inc : Int) (k' : Kernel) : Prop :=
  (-2 ^ 63 ≤ inc ∧ inc < 2 ^ 63) ∧ ∃ ret, k.sysSbrk L inc = .ok (ret, k')

theorem Globals.inArea_iff (h : k.Globals) {b : Int} : k.InArea b ↔ 0x3000000 ≤ b ∧ b ≤ 0x3020000 := by
  rw [InArea, h.heapStart, h.heapEnd]
  rfl

theorem Running.brk_eq (h : Running L k F c) : k.brk = (k.procs c).heapEnd := by rw [brk, h.cur]

/-- In the area the pages that a call maps lie between the two breaks. -/
theorem sbrkPage_iff {old new : Nat} (hold : old ≤ 0x3020000) (hnew : new ≤ 0x3020000) (ha : a % 4096 = 0)
    (hlt : a < 2 ^ 38) : SbrkPage old new (vpn a) ↔ old ≤ a ∧ a < new := by
  have hup : pgRoundUp old = (old + 4095) / 4096 * 4096 := by
    unfold pgRoundUp
    rw [Nat.mod_eq_of_lt (by omega)]
  have hpages : Phys.pagesUpTo (pgRoundUp old) new = (new - pgRoundUp old + 4095) / 4096 :=
    if_neg (by omega)
  unfold SbrkPage
  rw [hpages, hup]
  constructor
  · rintro ⟨j, hj, hv⟩
    rw [vpn_eq_iff] at hv
    omega
  · rintro ⟨h1, h2⟩
    exact ⟨(a - (old + 4095) / 4096 * 4096) / 4096, by omega, by rw [vpn_eq_iff]; omega⟩

/-- A call whose breaks both lie in the area maps pages of the area only. -/
theorem sbrkPage_area {old new : Nat} (hold : old ≤ 0x3020000) (hge : 0x3000000 ≤ old) (hnew : new ≤ 0x3020000)
    (h : SbrkPage old new v) : ∃ a, a % 4096 = 0 ∧ 0x3000000 ≤ a ∧ a < 0x3020000 ∧ v = vpn a := by
  obtain ⟨j, hj, rfl⟩ := h
  have hup : pgRoundUp old = (old + 4095) / 4096 * 4096 := by
    unfold pgRoundUp
    rw [Nat.mod_eq_of_lt (by omega)]
  rw [Phys.pagesUpTo, if_neg (by omega), hup] at hj
  exact ⟨pgRoundUp old + 4096 * j, by omega, by omega, by omega, rfl⟩

/-! ## The break and the pages around the area -/

/-- What is promised of a call: the break stays in the area, a call that would leave it fails and changes nothing, and
the pages around the area and the map of the kernel stay as they are. -/
structure SbrkKeeps (L : Layout) (k : Kernel) (inc : Int) (k' : Kernel) : Prop where
  area : k'.InArea k'.brk
  refused : ¬k.InArea (k.brk + inc) → k.sysSbrk L inc = .ok (.value (neg64 1), k)
  outside : ∀ i, k.Live i → ∀ v, (∀ va, k.gUserHeapStart ≤ va → va < k.gUserHeapEnd → v ≠ vpn va) →
    k'.map i v = k.map i v
  identity : ∀ i, k'.Live i → ∀ pa, IdentityPage L pa → k'.map i (vpn pa) = identityEntry pa

/-- A process runs whose break lies in the area, and every process has the map of the kernel. -/
structure AreaOk (L : Layout) (k : Kernel) (c : Fin procsMax) : Prop where
  running : ∃ F, Running L k F c
  area : k.InArea k.brk
  identity : ∀ i, k.Live i → ∀ pa, IdentityPage L pa → k.map i (vpn pa) = identityEntry pa

theorem AreaOk.keeps_iff (h : k.AreaOk L c) (hs : SbrkStep L k inc k') :
    (SbrkKeeps L k inc k' ↔ k.InArea (k.brk + inc)) ∧ (SbrkKeeps L k inc k' → k'.AreaOk L c) := by
  obtain ⟨F, hr⟩ := h.running
  obtain ⟨hinc, ret, hcall⟩ := hs
  obtain ⟨rfl, hg, F', hr'⟩ := hr.sysSbrk_grown hcall
  have harea := hr.globals.inArea_iff.mp h.area
  have hbrk' : k'.brk = ((k.brk + inc) % 2 ^ 64).toNat := by rw [hr'.brk_eq, hr.brk_eq, hg.heapEnd]
  rw [hr.brk_eq] at harea
  refine ⟨⟨fun hk => ?_, fun hin => ?_⟩, fun hk => ⟨⟨F', hr'⟩, hk.area, hk.identity⟩⟩
  · by_contra hout
    have hret := hk.refused hout
    rw [hcall] at hret
    have hval := SysRet.value.inj (Prod.mk.inj (Except.ok.inj hret)).1
    unfold neg64 at hval
    omega
  · have hnew := hr.globals.inArea_iff.mp hin
    rw [hr.brk_eq] at hnew
    have hle' : (k'.procs c).heapEnd ≤ 0x3020000 ∧ 0x3000000 ≤ (k'.procs c).heapEnd := by
      rw [hg.heapEnd]
      omega
    refine ⟨?_, fun hout => absurd hin hout, fun i hl v hv => ?_, fun i hl pa hpa => ?_⟩
    · rw [hr'.globals.inArea_iff, hr'.brk_eq]
      omega
    · by_cases hic : i = c
      · subst hic
        refine hg.leaves.same v ?_
        rintro ⟨-, hpage⟩
        rw [← hg.heapEnd] at hpage
        obtain ⟨a, -, h1, h2, rfl⟩ := sbrkPage_area (by omega) (by omega) (by omega) hpage
        exact hv a (by rw [hr.globals.heapStart]; exact h1) (by rw [hr.globals.heapEnd]; exact h2) rfl
      · exact congrFun ((hg.others i hic).map hl) v
    · by_cases hic : i = c
      · subst hic
        rw [hg.kernel_same (by omega) (by omega) hpa]
        exact h.identity i hr.live pa hpa
      · have hl' := (hg.others i hic).live.mp hl
        rw [(hg.others i hic).map hl']
        exact h.identity i hl' pa hpa

/-- In every sequence of calls the break and the pages around the area keep to what is promised exactly when every call
moves the break within the area. -/
theorem sbrkRun_area_iff (h : k₀.AreaOk L c) :
    Run (fun k inc k' => SbrkStep L k inc k' ∧ SbrkKeeps L k inc k') k₀ l k ↔
      Run (fun k inc k' => SbrkStep L k inc k' ∧ k.InArea (k.brk + inc)) k₀ l k :=
  Run.and_iff (I := fun k => k.AreaOk L c) (fun _ _ _ hs h => hs.keeps_iff h) h

theorem areaOk_of_booted (h : Booted L k F) : k.AreaOk L 1 := by
  have hr := h.running
  refine ⟨⟨F, hr⟩, ?_, h.identity⟩
  rw [hr.globals.inArea_iff, hr.brk_eq, h.heap 1 h.live_shell]
  decide

/-- The calls of the shell after boot. -/
theorem sbrkRun_area_iff_boot : ∃ k₀ F, Booted Layout.kernelMap k₀ F ∧ ∀ l k,
    (Run (fun k inc k' => SbrkStep .kernelMap k inc k' ∧ SbrkKeeps .kernelMap k inc k') k₀ l k ↔
      Run (fun k inc k' => SbrkStep .kernelMap k inc k' ∧ k.InArea (k.brk + inc)) k₀ l k) := by
  obtain ⟨s, F, -, -, -, hb, -⟩ := Machine.exists_shell Layout.kernelMap []
  exact ⟨s.kernel, F, hb, fun l k => sbrkRun_area_iff (areaOk_of_booted hb)⟩

/-- A call with an increment that is not positive moves the break and maps nothing. -/
theorem sysSbrk_shrink (k : Kernel) (h : inc ≤ 0) :
    k.sysSbrk L inc = .ok (.value k.brk,
      k.setProc k.cur { k.procs k.cur with heapEnd := ((k.brk + inc) % 2 ^ 64).toNat }) :=
  if_neg (by omega)

/-- The shell moves its break below the heap. -/
theorem sbrkRun_leaves_area : ¬∀ (L : Layout) (k₀ k : Kernel) (c : Fin procsMax) (l : List Int), k₀.AreaOk L c →
    Run (SbrkStep L) k₀ l k → Run (fun k inc k' => SbrkStep L k inc k' ∧ SbrkKeeps L k inc k') k₀ l k := by
  intro hall
  obtain ⟨s, F, -, -, -, hb, -⟩ := Machine.exists_shell Layout.kernelMap []
  have hok := areaOk_of_booted hb
  have hstep : SbrkStep Layout.kernelMap s.kernel (-8192) _ := ⟨by decide, _, sysSbrk_shrink _ (by decide)⟩
  cases (sbrkRun_area_iff hok).mp (hall _ _ _ _ _ hok (.single hstep)) with
  | cons h _ =>
      have hin := h.2
      rw [hb.globals.inArea_iff, hb.running.brk_eq, hb.heap 1 hb.live_shell] at hin
      omega

/-! ## The frames of the heap -/

/-- The frames that a call has mapped. -/
def sbrkFrames (k : Kernel) (inc : Int) (k' : Kernel) : List Nat :=
  if 0 < inc then
    (List.range (Phys.pagesUpTo (pgRoundUp k.brk) k'.brk)).filterMap fun j =>
      userFrame (k'.map k.cur (vpn (pgRoundUp k.brk + 4096 * j)))
  else []

/-- The byte that process `i` reads at `va`. -/
def byteAt (k : Kernel) (i : Fin procsMax) (va : Nat) : Option UInt8 :=
  (userFrame (k.map i (vpn va))).map fun pg => k.phys.mem (pg + va % 4096)

/-- A page that a call does not map keeps its bytes. -/
theorem Running.sysSbrk_byteAt (h : Running L k F c) (hs : k.sysSbrk L inc = .ok (ret, k'))
    (hv : ¬(0 < inc ∧ SbrkPage (k.procs c).heapEnd (k'.procs c).heapEnd (vpn va))) :
    k'.byteAt c va = k.byteAt c va := by
  have hcur := h.cur
  have hl : k.Live k.cur := hcur.symm ▸ h.live
  obtain ⟨-, hg, -⟩ := h.sysSbrk_grown hs
  obtain ⟨-, F', hsb⟩ := sysSbrk_spec h.toInv hl (h.full _ hl) hs
  rw [hg.heapEnd] at hv
  unfold byteAt
  rw [hg.leaves.same _ hv]
  cases hf : userFrame (k.map c (vpn va)) with
  | none => rfl
  | some pg =>
      have hp := h.spaceOk.page pg (inSpace_of_frame hf)
      have ho : pageOf (pg + va % 4096) = pg := (pageOf_eq_iff hp.1.aligned).mpr ⟨by omega, by omega⟩
      refine congrArg some (hsb.extend.grows.mem _ (ho.symm ▸ hp.2) ?_)
      rw [ho, hcur]
      exact h.spaceOk.frame_not_table hf

/-- What a call maps lies on pages that were available. -/
theorem Running.sysSbrk_avail (h : Running L k F c) (hs : k.sysSbrk L inc = .ok (ret, k')) (h0 : 0 < inc)
    (hv : SbrkPage (k.procs c).heapEnd (k'.procs c).heapEnd v) :
    ∃ pg, UserLeaf (k'.map c v) pg ∧ Avail L k.phys F pg := by
  have hcur := h.cur
  have hl : k.Live k.cur := hcur.symm ▸ h.live
  obtain ⟨-, hg, -⟩ := h.sysSbrk_grown hs
  obtain ⟨-, F', hsb⟩ := sysSbrk_spec h.toInv hl (h.full _ hl) hs
  have hself : k'.procs c = { k.procs c with heapEnd := (((k.procs c).heapEnd + inc) % 2 ^ 64).toNat } := by
    rw [hsb.state, hcur]
    exact setProc_procs_self
  have hpt : (k'.procs c).pageTable = (k.procs c).pageTable := by rw [hself]
  have hleaf := hsb.extend.leaf v
  rw [hcur, ← hg.heapEnd] at hleaf
  unfold Kernel.map
  rw [hpt]
  exact hleaf ⟨h0, hv⟩

end Kernel

/-- The kernel in a sequence of calls of one process: the highest and the lowest break so far, and the frames that the
calls have taken. -/
structure HeapState where
  kernel : Kernel
  top : Nat
  low : Nat
  frames : List Nat

namespace HeapState

/-- No call has been made. -/
def start (k : Kernel) : HeapState := ⟨k, k.brk, k.brk, []⟩

/-- A call after which the break lies in the area. -/
structure Step (L : Layout) (x : HeapState) (inc : Int) (x' : HeapState) : Prop where
  sbrk : SbrkStep L x.kernel inc x'.kernel
  area : x'.kernel.InArea x'.kernel.brk
  top : x'.top = max x.top x'.kernel.brk
  low : x'.low = min x.low x'.kernel.brk
  frames : x'.frames = x.frames ++ sbrkFrames x.kernel inc x'.kernel

/-- No entry that is valid is replaced, every frame that was taken is mapped or free, and below the lowest break the
bytes are those of `k₀`. -/
structure Kept (k₀ : Kernel) (c : Fin procsMax) (x x' : HeapState) : Prop where
  mapped : ∀ v, pteHas (x.kernel.map c v) pteV → x'.kernel.map c v = x.kernel.map c v
  frames : ∀ pg ∈ x'.frames, (∃ v, userFrame (x'.kernel.map c v) = some pg) ∨ x'.kernel.phys.OnFreeList pg
  bytes : ∀ va < x'.low, x'.kernel.byteAt c va = k₀.byteAt c va

/-- A call that maps pages starts at the highest break there has been. -/
def GrowsAtTop (x : HeapState) (inc : Int) : Prop :=
  0 < inc → pgRoundUp x.kernel.brk < x.kernel.brk + inc → pgRoundUp x.top ≤ pgRoundUp x.kernel.brk

/-- The pages of the area below the highest break are mapped, and no others. -/
structure Inv (L : Layout) (k₀ : Kernel) (c : Fin procsMax) (x : HeapState) : Prop where
  running : ∃ F, Running L x.kernel F c
  low : 0x3000000 ≤ x.low
  low_le : x.low ≤ x.kernel.brk
  le_top : x.kernel.brk ≤ x.top
  top_le : x.top ≤ 0x3020000
  mapped : ∀ a, a % 4096 = 0 → 0x3000000 ≤ a → a < 0x3020000 →
    ((∃ pg, UserLeaf (x.kernel.map c (vpn a)) pg) ↔ a < x.top)
  frames : ∀ pg ∈ x.frames, ∃ v, userFrame (x.kernel.map c v) = some pg
  bytes : ∀ va < x.low, x.kernel.byteAt c va = k₀.byteAt c va

variable {x x' : HeapState}

theorem exists_step (h : SbrkStep L x.kernel inc k') (ha : k'.InArea k'.brk) :
    ∃ x', x.Step L inc x' ∧ x'.kernel = k' :=
  ⟨⟨k', max x.top k'.brk, min x.low k'.brk, x.frames ++ sbrkFrames x.kernel inc k'⟩,
    ⟨h, ha, rfl, rfl, rfl⟩, rfl⟩

namespace Inv

/-- A valid entry of a page in the area belongs to a page below the highest break. -/
theorem valid_lt (h : x.Inv L k₀ c) (ha : a % 4096 = 0) (hge : 0x3000000 ≤ a) (hlt : a < 0x3020000)
    (hv : pteHas (x.kernel.map c (vpn a)) pteV) : a < x.top := by
  obtain ⟨F, hr⟩ := h.running
  exact (h.mapped a ha hge hlt).mp (hr.spaceMap.below ⟨a, by unfold kernelBase; omega, rfl⟩ hv)

/-- Where the break lies after a call. -/
theorem brk_step (h : x.Inv L k₀ c) (hs : x.Step L inc x') :
    (x'.kernel.brk : Int) = x.kernel.brk + inc ∧ 0x3000000 ≤ x'.kernel.brk ∧ x'.kernel.brk ≤ 0x3020000 := by
  obtain ⟨F, hr⟩ := h.running
  obtain ⟨hinc, ret, hcall⟩ := hs.sbrk
  obtain ⟨-, hg, F', hr'⟩ := hr.sysSbrk_grown hcall
  have harea := hs.area
  rw [hr'.globals.inArea_iff] at harea
  have hval := hg.heapEnd
  rw [← hr.brk_eq, ← hr'.brk_eq] at hval
  have := h.le_top
  have := h.top_le
  omega

/-- The pages that a call maps. -/
theorem mapped_iff (h : x.Inv L k₀ c) (hs : x.Step L inc x') (ha : a % 4096 = 0) (hlt : a < 2 ^ 38) :
    SbrkPage (x.kernel.procs c).heapEnd (x'.kernel.procs c).heapEnd (vpn a) ↔
      x.kernel.brk ≤ a ∧ a < x'.kernel.brk := by
  obtain ⟨F, hr⟩ := h.running
  obtain ⟨-, ret, hcall⟩ := hs.sbrk
  obtain ⟨-, -, F', hr'⟩ := hr.sysSbrk_grown hcall
  have := h.brk_step hs
  have := h.le_top
  have := h.top_le
  rw [← hr.brk_eq, ← hr'.brk_eq]
  exact sbrkPage_iff (by omega) (by omega) ha hlt

theorem pgRoundUp_le {n m : Nat} (hn : n ≤ 0x3020000) (hm : m % 4096 = 0) : pgRoundUp n ≤ m ↔ n ≤ m := by
  unfold pgRoundUp
  rw [Nat.mod_eq_of_lt (by omega)]
  omega

/-- Where a call starts below the highest break it replaces the entry of a page. -/
theorem growsAtTop (h : x.Inv L k₀ c) (hs : x.Step L inc x') (hk : x.Kept k₀ c x') : x.GrowsAtTop inc := by
  intro h0 hlt
  by_contra hbelow
  obtain ⟨F, hr⟩ := h.running
  obtain ⟨-, ret, hcall⟩ := hs.sbrk
  obtain ⟨hbrk, -, hle'⟩ := h.brk_step hs
  have hle := h.le_top
  have htop := h.top_le
  have hlow := h.low_le
  have hge := h.low
  -- the first page of the call
  have ha : pgRoundUp x.kernel.brk % 4096 = 0 := by
    unfold pgRoundUp
    omega
  have hstart := (pgRoundUp_le (by omega : x.kernel.brk ≤ 0x3020000) ha).mp (Nat.le_refl _)
  have hold : pgRoundUp x.kernel.brk < x.top := by
    rw [pgRoundUp_le htop ha] at hbelow
    omega
  obtain ⟨pg, hpg⟩ := (h.mapped _ ha (by omega) (by omega)).mpr hold
  have hpage := (h.mapped_iff hs ha (by omega)).mpr ⟨hstart, by omega⟩
  obtain ⟨pg', hpg', hav⟩ := hr.sysSbrk_avail hcall h0 hpage
  rw [hk.mapped _ (valid_of_userFrame hpg.frame)] at hpg'
  obtain rfl : pg' = pg := Option.some.inj (hpg'.frame.symm.trans hpg.frame)
  exact (hr.spaceOk.page pg' (inSpace_of_frame hpg.frame)).2 hav

/-- Where it does not, all entries are kept. -/
theorem kept_mapped (h : x.Inv L k₀ c) (hs : x.Step L inc x') (hq : x.GrowsAtTop inc) :
    ∀ v, pteHas (x.kernel.map c v) pteV → x'.kernel.map c v = x.kernel.map c v := by
  intro v hv
  obtain ⟨F, hr⟩ := h.running
  obtain ⟨-, ret, hcall⟩ := hs.sbrk
  obtain ⟨-, hg, F', hr'⟩ := hr.sysSbrk_grown hcall
  obtain ⟨hbrk, hge', hle'⟩ := h.brk_step hs
  have hle := h.le_top
  have htop := h.top_le
  have hlow := h.low_le
  have hge := h.low
  refine hg.leaves.same v ?_
  rintro ⟨h0, hpage⟩
  rw [← hg.heapEnd] at hpage
  obtain ⟨a, ha, h3, h4, rfl⟩ := sbrkPage_area (by rw [← hr.brk_eq]; omega) (by rw [← hr.brk_eq]; omega)
    (by rw [← hr'.brk_eq]; omega) hpage
  obtain ⟨h5, h6⟩ := (h.mapped_iff hs ha (by omega)).mp hpage
  have hlt := h.valid_lt ha h3 h4 hv
  have hup := (pgRoundUp_le (by omega : x.kernel.brk ≤ 0x3020000) ha).mpr h5
  have hmax := hq h0 (by omega)
  exact absurd ((pgRoundUp_le htop ha).mp (Nat.le_trans hmax hup)) (by omega)

theorem step (h : x.Inv L k₀ c) (hs : x.Step L inc x') (hq : x.GrowsAtTop inc) : x'.Inv L k₀ c := by
  obtain ⟨F, hr⟩ := h.running
  obtain ⟨-, ret, hcall⟩ := hs.sbrk
  obtain ⟨-, hg, F', hr'⟩ := hr.sysSbrk_grown hcall
  obtain ⟨hbrk, hge', hle'⟩ := h.brk_step hs
  have hle := h.le_top
  have htop := h.top_le
  have hlow := h.low_le
  have hge := h.low
  have htop' := hs.top
  have hlow' := hs.low
  have hkept := h.kept_mapped hs hq
  refine ⟨⟨F', hr'⟩, by omega, by omega, by omega, by omega, fun a ha h3 h4 => ?_, fun pg hpg => ?_,
    fun va hva => ?_⟩
  · rw [htop']
    by_cases hnew : 0 < inc ∧ x.kernel.brk ≤ a ∧ a < x'.kernel.brk
    · have hpage := (h.mapped_iff hs ha (by omega)).mpr hnew.2
      obtain ⟨pg, hpg, -⟩ := hr.sysSbrk_avail hcall hnew.1 hpage
      exact iff_of_true ⟨pg, hpg⟩ (by omega)
    · have hsame : x'.kernel.map c (vpn a) = x.kernel.map c (vpn a) := by
        refine hg.leaves.same _ ?_
        rintro ⟨h0, hpage⟩
        rw [← hg.heapEnd] at hpage
        exact hnew ⟨h0, (h.mapped_iff hs ha (by omega)).mp hpage⟩
      rw [hsame, h.mapped a ha h3 h4]
      omega
  · rw [hs.frames, List.mem_append] at hpg
    rcases hpg with hpg | hpg
    · obtain ⟨v, hv⟩ := h.frames pg hpg
      exact ⟨v, by rw [hkept v (valid_of_userFrame hv), hv]⟩
    · unfold sbrkFrames at hpg
      split at hpg
      · obtain ⟨j, -, hj⟩ := List.mem_filterMap.mp hpg
        rw [hr.cur] at hj
        exact ⟨_, hj⟩
      · exact absurd hpg List.not_mem_nil
  · rw [hlow'] at hva
    rw [← h.bytes va (by omega)]
    refine hr.sysSbrk_byteAt hcall ?_
    rintro ⟨h0, hpage⟩
    rw [vpn_page va] at hpage
    have := (h.mapped_iff hs (by omega) (by omega)).mp hpage
    omega

theorem kept_iff (h : x.Inv L k₀ c) (hs : x.Step L inc x') :
    (x.Kept k₀ c x' ↔ x.GrowsAtTop inc) ∧ (x.Kept k₀ c x' → x'.Inv L k₀ c) := by
  refine ⟨⟨h.growsAtTop hs, fun hq => ?_⟩, fun hk => h.step hs (h.growsAtTop hs hk)⟩
  have hi := h.step hs hq
  exact ⟨h.kept_mapped hs hq, fun pg hpg => .inl (hi.frames pg hpg), hi.bytes⟩

end Inv

end HeapState

namespace Kernel

/-- The program of process `i` is as it was loaded: its heap has one page. -/
structure AsLoaded (k : Kernel) (i : Fin procsMax) : Prop where
  heapEnd : (k.procs i).heapEnd = 0x3001000
  user : ∀ v pg, userFrame (k.map i v) = some pg → InitPage v
  data : ∀ v, DataPage 0x1020000 0x1010000 0x3000000 v → DataLeaf (k.map i v)

/-- `kernel_main` loads the programs of idle and of the shell. -/
theorem asLoaded_of_booted (h : Booted L k F) (hl : k.Live i) : k.AsLoaded i :=
  ⟨h.heap i hl, h.user i hl, h.data i hl⟩

/-- `sys_exec` loads a program. -/
theorem Renewed.asLoaded (h : Renewed L k c k') : k'.AsLoaded c := ⟨h.heapEnd, h.user, h.data⟩

theorem AsLoaded.inv (h : k₀.AsLoaded c) (hr : Running L k₀ F c) : (HeapState.start k₀).Inv L k₀ c := by
  have hb : k₀.brk = 0x3001000 := hr.brk_eq.trans h.heapEnd
  have htop : (HeapState.start k₀).top = 0x3001000 := hb
  have hlow : (HeapState.start k₀).low = 0x3001000 := hb
  refine ⟨⟨F, hr⟩, by rw [hlow]; decide, Nat.le_refl _, Nat.le_refl _, by rw [htop]; decide,
    fun a ha h1 h2 => ?_, fun pg hpg => absurd hpg List.not_mem_nil, fun _ _ => rfl⟩
  rw [htop]
  constructor
  · rintro ⟨pg, hpg⟩
    rcases h.user _ pg hpg.frame with ⟨j, hj, hv⟩ | ⟨j, hj, hv⟩ | hv
    all_goals
      rw [vpn_eq_iff] at hv
      unfold userBase at *
      omega
  · intro hlt
    obtain rfl : a = 0x3000000 := by omega
    exact (h.data _ (.inr rfl)).user

end Kernel

/-- In every sequence of calls of a program that keep the break in the area, no entry is replaced, no frame is lost and
no byte below the lowest break changes exactly when no call grows the heap over pages that a higher break has left
mapped. -/
theorem sbrkRun_kept_iff {x : HeapState} (hr : Running L k₀ F c) (h : k₀.AsLoaded c) :
    Run (fun x inc x' => x.Step L inc x' ∧ x.Kept k₀ c x') (.start k₀) l x ↔
      Run (fun x inc x' => x.Step L inc x' ∧ x.GrowsAtTop inc) (.start k₀) l x :=
  Run.and_iff (I := fun x => x.Inv L k₀ c) (fun _ _ _ hi hs => hi.kept_iff hs) (h.inv hr)

/-- The calls of the shell after boot. -/
theorem sbrkRun_kept_iff_boot : ∃ k₀ F, Booted Layout.kernelMap k₀ F ∧ ∀ l x,
    (Run (fun x inc x' => HeapState.Step Layout.kernelMap x inc x' ∧ x.Kept k₀ 1 x') (.start k₀) l x ↔
      Run (fun x inc x' => HeapState.Step Layout.kernelMap x inc x' ∧ x.GrowsAtTop inc) (.start k₀) l x) := by
  obtain ⟨s, F, -, -, -, hb, -⟩ := Machine.exists_shell Layout.kernelMap []
  exact ⟨s.kernel, F, hb, fun l x => sbrkRun_kept_iff hb.running (asLoaded_of_booted hb hb.live_shell)⟩

/-- The shell gives back its page of heap and takes it again. -/
theorem sbrkRun_replaces : ¬∀ (L : Layout) (k₀ : Kernel) (F : List Nat) (c : Fin procsMax) (l : List Int)
    (x : HeapState), Running L k₀ F c → k₀.AsLoaded c → Run (HeapState.Step L) (.start k₀) l x →
      Run (fun x inc x' => x.Step L inc x' ∧ x.Kept k₀ c x') (.start k₀) l x := by
  intro hall
  obtain ⟨s, F, -, -, -, hb, hroom⟩ := Machine.exists_shell Layout.kernelMap []
  have hr := hb.running
  have hloaded := asLoaded_of_booted hb hb.live_shell
  have hbrk : s.kernel.brk = 0x3001000 := hr.brk_eq.trans hloaded.heapEnd
  -- the break moves down by a page
  obtain ⟨k₁, hk₁⟩ : ∃ k₁, s.kernel.sysSbrk Layout.kernelMap (-4096) = .ok (.value s.kernel.brk, k₁) :=
    ⟨_, sysSbrk_shrink _ (by decide)⟩
  obtain ⟨-, hg₁, F₁, hr₁⟩ := hr.sysSbrk_grown hk₁
  have hheap₁ : (k₁.procs 1).heapEnd = 0x3000000 := by
    rw [hg₁.heapEnd, hloaded.heapEnd]
    rfl
  have hbrk₁ : k₁.brk = 0x3000000 := hr₁.brk_eq.trans hheap₁
  have hphys : k₁.phys = s.kernel.phys := by
    have hk := hk₁.symm.trans (sysSbrk_shrink _ (by decide))
    rw [(Prod.mk.inj (Except.ok.inj hk)).2]
    rfl
  -- and up again
  obtain ⟨⟨ret, k₂⟩, hk₂⟩ : ∃ r, k₁.sysSbrk Layout.kernelMap 4096 = .ok r := by
    refine hr₁.sysSbrk_total (Nat.le_trans ?_ (hphys.symm ▸ hroom))
    rw [hr₁.cur, hheap₁]
    decide
  obtain ⟨-, hg₂, F₂, hr₂⟩ := hr₁.sysSbrk_grown hk₂
  have hbrk₂ : k₂.brk = 0x3001000 := by
    rw [hr₂.brk_eq, hg₂.heapEnd, hheap₁]
    rfl
  have harea₁ : k₁.InArea k₁.brk := by
    rw [hr₁.globals.inArea_iff, hbrk₁]
    decide
  have harea₂ : k₂.InArea k₂.brk := by
    rw [hr₂.globals.inArea_iff, hbrk₂]
    decide
  obtain ⟨x₁, hx₁, rfl⟩ := HeapState.exists_step (x := .start s.kernel) ⟨by decide, _, hk₁⟩ harea₁
  obtain ⟨x₂, hx₂, -⟩ := HeapState.exists_step (x := x₁) ⟨by decide, _, hk₂⟩ harea₂
  cases (sbrkRun_kept_iff hr hloaded).mp (hall _ _ _ _ _ _ hr hloaded (.cons hx₁ (.single hx₂))) with
  | @cons _ y _ _ _ h1 hrest =>
      cases hrest with
      | cons h2 _ =>
          have hy : y.kernel.brk = 0x3000000 := by
            have := ((hloaded.inv hr).brk_step h1.1).1
            rw [show (HeapState.start s.kernel).kernel.brk = 0x3001000 from hbrk] at this
            omega
          have htop : y.top = 0x3001000 := by
            rw [h1.1.top, hy, show (HeapState.start s.kernel).top = 0x3001000 from hbrk]
            rfl
          have hle := h2.2 (by decide) (by rw [hy]; decide)
          rw [hy, htop] at hle
          exact absurd hle (by decide)

end RiscvOs
