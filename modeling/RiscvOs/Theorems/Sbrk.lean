import RiscvOs.Theorems.Loader

/-!
# The break of a process

`sbrk` of the user library and `sys_sbrk` keep a break each. In every run the two are a page apart, and all
bytes below the library's are mapped, each page on a frame of its own among the frames of the user.
-/

namespace RiscvOs

open ByteMem Outcome Kernel Lts

variable {L : Layout} {k k' : Kernel} {F F' : List Nat} {i c : Fin procsMax} {s s' : Machine} {t : Trap}
  {fs : Initramfs} {inc : Int} {va a pg : Nat}

namespace Kernel

/-! ## The pages of the heap -/

/-- A process has more pages mapped than memory has. -/
theorem Valid.not_mapped (hv : k.Valid L F) (hl : k.Live i) (ha : a % 4096 = 0) :
    ∃ j ≤ 0x4000, ∀ pg, ¬UserLeaf (k.map i (vpn (a + 4096 * j))) pg := by
  by_contra hall
  push Not at hall
  have hs := (hv.proc i hl).spaceOk (hv.full i hl)
  choose f hf using hall
  -- the frames are different pages of free RAM
  let g : Nat → Nat := fun j => if h : j ≤ 0x4000 then (f j h - L.freeRam) / 4096 else 0
  have hpage : ∀ j (h : j ≤ 0x4000), IsPage L (f j h) := fun j h =>
    (hs.page _ (inSpace_of_frame (hf j h).frame)).1
  have hmaps : ∀ j ∈ Finset.range 0x4001, g j ∈ Finset.range 0x4000 := by
    intro j hj
    rw [Finset.mem_range] at hj ⊢
    have hle : j ≤ 0x4000 := by omega
    have hp := hpage j hle
    have := hp.ge
    have := hp.lt
    simp only [g, dif_pos hle]
    unfold Layout.freeRamEnd at *
    omega
  obtain ⟨x, hx, y, hy, hne, he⟩ := Finset.exists_ne_map_eq_of_card_lt_of_maps_to
    (by rw [Finset.card_range, Finset.card_range]; omega) hmaps
  rw [Finset.mem_range] at hx hy
  have hx' : x ≤ 0x4000 := by omega
  have hy' : y ≤ 0x4000 := by omega
  simp only [g, dif_pos hx', dif_pos hy'] at he
  have hpx := hpage x hx'
  have hpy := hpage y hy'
  have hal := L.freeRam_aligned
  have := hpx.ge
  have := hpx.aligned
  have := hpy.ge
  have := hpy.aligned
  have hfr : f x hx' = f y hy' := by omega
  have hvpn := hs.frame_inj (hf x hx').frame (hfr ▸ (hf y hy').frame)
  rw [vpn_eq_iff] at hvpn
  omega

/-- The pages from the start of the heap up to the break are the user's. -/
def HeapMapped (k : Kernel) (i : Fin procsMax) : Prop :=
  ∀ va, 0x3000000 ≤ va → va < (k.procs i).heapEnd → ∃ pg, UserLeaf (k.map i (vpn va)) pg

/-- The heap is not larger than memory. -/
theorem HeapMapped.le (h : HeapMapped k i) (hv : k.Valid L F) (hl : k.Live i) :
    (k.procs i).heapEnd ≤ 0x7000000 := by
  obtain ⟨j, hj, hno⟩ := hv.not_mapped hl (a := 0x3000000) (by decide)
  by_contra hgt
  obtain ⟨pg, hpg⟩ := h (0x3000000 + 4096 * j) (by omega) (by omega)
  exact hno pg hpg

theorem SameMap.heapMapped (hs : SameMap k k' i) (hl : k.Live i) (h : HeapMapped k i) : HeapMapped k' i := by
  intro va h1 h2
  rw [hs.heapEnd hl] at h2
  rw [hs.map hl]
  exact h va h1 h2

/-- A new program has one page of heap. -/
theorem heapMapped_of_data (hheap : (k.procs i).heapEnd = 0x3001000)
    (hdata : ∀ v, DataPage 0x1020000 0x1010000 0x3000000 v → DataLeaf (k.map i v)) : HeapMapped k i := by
  intro va h1 h2
  have hpage : vpn va = vpn 0x3000000 := by
    rw [vpn_eq_iff]
    omega
  exact (hdata _ (.inr hpage)).user

/-- An address below the new break whose page is not new is in a page that has begun below the old one. -/
theorem page_lt_of_not_sbrkPage {old new : Nat} (hold : old ≤ 0x10000000) (hnew : new ≤ 0x10000000) (hva : va < new)
    (h : ¬SbrkPage old new (vpn va)) : va / 4096 * 4096 < old := by
  by_contra hge
  have hup : pgRoundUp old = (old + 4095) / 4096 * 4096 := by
    unfold pgRoundUp
    rw [Nat.mod_eq_of_lt (by omega)]
  refine h ⟨(va - pgRoundUp old) / 4096, ?_, ?_⟩
  · unfold Phys.pagesUpTo
    rw [if_neg (by omega), hup]
    omega
  · rw [vpn_eq_iff, hup]
    omega

theorem vpn_page (va : Nat) : vpn va = vpn (va / 4096 * 4096) := by
  rw [vpn_eq_iff]
  omega

/-- A page of the user below the break or the top of the stack is copied. -/
theorem Valid.copyPage (hv : k.Valid L F) (hl : k.Live c) (hcur : k.cur = c) (hheap : (k.procs c).heapEnd ≤ kernelBase)
    (ha : a % 4096 = 0) (hge : userBase ≤ a) (hlt : a < max (k.procs c).heapEnd (k.procs c).userStackTop)
    (hpg : UserLeaf (k.map c (vpn a)) pg) : k.CopyPage (vpn a) := by
  have hpt := hv.full c hl
  have hstack := hv.stack c hl
  have hbelow : a < kernelBase := Nat.lt_of_lt_of_le hlt (Nat.max_le.mpr ⟨hheap, hstack⟩)
  rw [copyPage_iff (by rw [hcur]; exact hheap) (by rw [hcur]; exact hstack) ha hge (by rw [hcur]; exact hlt), hcur]
  rcases ((hv.proc c hl).map hpt).walkPage (fun pg h => (((hv.proc c hl).spaceOk hpt).page pg h).1) hbelow with
    ⟨_, hno⟩ | ⟨_, hw, hne, _⟩
  · rw [show leafAt k.phys.mem (k.procs c).pageTable _ = k.map c _ from rfl, hpg.frame] at hno
    cases hno
  · rw [hw]
    exact hne

/-- The child has the pages of its parent. -/
theorem Copied.heapMapped (h : Copied k c i k') (hv : k.Valid L F) (hl : k.Live c) (hcur : k.cur = c)
    (hm : HeapMapped k c) : HeapMapped k' i := by
  intro va h1 h2
  rw [h.heapEnd] at h2
  have hle := hm.le hv hl
  rw [vpn_page va]
  obtain ⟨pg, hpg⟩ := hm (va / 4096 * 4096) (by omega) (by omega)
  exact (h.leaf _ (hv.copyPage hl hcur (by unfold kernelBase; omega) (by omega) (by unfold userBase; omega)
    (by omega) hpg)).user

/-- `sys_sbrk` where the break does not fall below 0: memory bounds it, and it moves by the increment. -/
theorem Grown.heapMapped (h : Grown k c inc k') (hv : k.Valid L F) (hv' : k'.Valid L F') (hl : k.Live c)
    (hm : HeapMapped k c) (h0 : 0 ≤ (k.procs c).heapEnd + inc) (hlt : inc < 2 ^ 63) :
    HeapMapped k' c ∧ ((k'.procs c).heapEnd : Int) = (k.procs c).heapEnd + inc := by
  have hle := hm.le hv hl
  have hheap := h.heapEnd
  by_cases hpos : inc ≤ 0
  · have hnew : (((k.procs c).heapEnd + inc) % 2 ^ 64).toNat = ((k.procs c).heapEnd + inc).toNat := by omega
    rw [hnew] at hheap
    refine ⟨fun va h1 h2 => ?_, by omega⟩
    rw [h.leaves.same _ fun hs => by omega]
    exact hm va h1 (by omega)
  have hnew : (((k.procs c).heapEnd + inc) % 2 ^ 64).toNat = (k.procs c).heapEnd + inc.toNat := by omega
  rw [hnew] at hheap
  have hup : pgRoundUp (k.procs c).heapEnd = ((k.procs c).heapEnd + 4095) / 4096 * 4096 := by
    unfold pgRoundUp
    rw [Nat.mod_eq_of_lt (by omega)]
  -- otherwise all pages of the next 64 MiB are mapped
  have hbound : (k.procs c).heapEnd + inc.toNat ≤ 0x10000000 := by
    by_contra hgt
    obtain ⟨j, hj, hno⟩ := hv'.not_mapped h.live (a := pgRoundUp (k.procs c).heapEnd)
      (by rw [hup]; omega)
    obtain ⟨pg, hpg⟩ := h.user (vpn (pgRoundUp (k.procs c).heapEnd + 4096 * j)) (by omega) ⟨j, by
      rw [hnew, hup]
      unfold Phys.pagesUpTo
      split <;> omega, rfl⟩
    exact hno pg hpg
  refine ⟨fun va h1 h2 => ?_, by omega⟩
  by_cases hpage : SbrkPage (k.procs c).heapEnd ((k.procs c).heapEnd + inc.toNat) (vpn va)
  · exact h.user _ (by omega) (by rw [hnew]; exact hpage)
  · rw [h.leaves.same _ (by rw [hnew]; exact fun hs => hpage hs.2), vpn_page va]
    have hold := page_lt_of_not_sbrkPage (by omega) hbound (by omega) hpage
    exact hm _ (by omega) hold

/-- `sys_sbrk` leaves the map of the kernel as it is. -/
theorem Grown.kernel_same (h : Grown k c inc k') (hle : (k.procs c).heapEnd ≤ 0x7000000)
    (hle' : (k'.procs c).heapEnd ≤ 0x7000000) (hid : IdentityPage L a) : k'.map c (vpn a) = k.map c (vpn a) := by
  refine h.leaves.same _ ?_
  rw [← h.heapEnd]
  rintro ⟨-, j, hj, hv⟩
  have hlt := hid.lt_39
  have hge := hid.ge
  unfold Phys.pagesUpTo pgRoundUp at hj
  rw [vpn_eq_iff] at hv
  unfold kernelBase pgRoundUp at *
  split at hj <;> omega

end Kernel

/-! ## `sbrk` of the library -/

/-- `sbrk.c`: what it keeps of a process, and the ranges that its calls have returned, the last one first. -/
structure LibSbrk where
  /-- `heap_end`; it lies in `.bss` -/
  heapEnd : Nat := 0
  ranges : List (Nat × Nat) := []

/-- The library's break: `heap_end`, or `__user_heap_start` before the first call. -/
def LibSbrk.brk (l : LibSbrk) : Nat := if l.heapEnd = 0 then 0x3000000 else l.heapEnd

/-- `sbrk(increment)` with the result of its system call. -/
def LibSbrk.sbrk (l : LibSbrk) (increment : Int) (res : BitVec 64) : LibSbrk :=
  if res.toInt < 0 then { l with heapEnd := l.brk }
  else
    { heapEnd := ((l.brk + increment) % 2 ^ 64).toNat, ranges := (l.brk, increment.toNat) :: l.ranges }

/-- The machine, with the library of each process. -/
structure Brk where
  machine : Machine
  lib : Fin procsMax → LibSbrk

/-- What a trap does to the library of the processes: `sbrk` of the caller runs, a child gets a copy, and
a new program starts with zeros. -/
def Brk.libAfter (L : Layout) (fs : Initramfs) (b : Brk) (t : Trap) (res : BitVec 64) : Fin procsMax → LibSbrk :=
  let c := b.machine.kernel.cur
  match t.request with
  | some (.sbrk inc) => Function.update b.lib c ((b.lib c).sbrk inc res)
  | some .fork =>
    match b.machine.kernel.freeSlot with
    | some i => Function.update b.lib i (b.lib c)
    | none => b.lib
  | some (.exec filename _ _) =>
    match (b.machine.inKernel L t).tarfsLookup filename fs with
    | .ok (some _) => Function.update b.lib c {}
    | _ => b.lib
  | _ => b.lib

/-- A trap of the timer, or a call of `fork`, `exec` or the library's `sbrk` with an increment that is not
negative. -/
structure BrkStep (L : Layout) (fs : Initramfs) (b : Brk) (t : Trap) (b' : Brk) : Prop where
  step : b.machine.Step L fs t b'.machine
  maps : t.Maps
  nonneg : ∀ inc, t.request = some (.sbrk inc) → 0 ≤ inc
  lib : b'.lib = b.libAfter L fs t (b'.machine.user 10)

/-- The shell starts, and no program has called `sbrk`. -/
structure BrkStart (L : Layout) (fs : Initramfs) (b : Brk) : Prop where
  start : b.machine.Start L fs
  lib : b.lib = fun _ => {}

/-- The address is one of the user's that it may read and write, and no other page number of the user has
its frame. -/
def OwnByte (f : Vpn → Nat) (va : Nat) : Prop :=
  ∃ pg, UserLeaf (f (vpn va)) pg ∧ ∀ v, userFrame (f v) = some pg → v = vpn va

theorem Kernel.HeapMapped.ownByte (h : HeapMapped k i) (hv : k.Valid L F) (hl : k.Live i) (hge : 0x3000000 ≤ va)
    (hlt : va < (k.procs i).heapEnd) : OwnByte (k.map i) va := by
  obtain ⟨pg, hpg⟩ := h va hge hlt
  exact ⟨pg, hpg, fun v hv' => ((hv.proc i hl).spaceOk (hv.full i hl)).frame_inj hv' hpg.frame⟩

/-- What holds of the break of a process and of the ranges that `sbrk` has returned to it. -/
structure BrkOk (k : Kernel) (i : Fin procsMax) (l : LibSbrk) : Prop where
  synced : (k.procs i).heapEnd = l.brk + 4096
  own : ∀ r ∈ l.ranges, ∀ va, r.1 ≤ va → va < r.1 + r.2 → OwnByte (k.map i) va
  apart : l.ranges.Pairwise fun r r' => r'.1 + r'.2 ≤ r.1

/-- The invariant: the heap is mapped, and the ranges lie in it, each above those before it. -/
structure BrkInv (k : Kernel) (i : Fin procsMax) (l : LibSbrk) : Prop where
  mapped : HeapMapped k i
  ge : 0x3000000 ≤ l.brk
  synced : (k.procs i).heapEnd = l.brk + 4096
  inside : ∀ r ∈ l.ranges, 0x3000000 ≤ r.1 ∧ r.1 + r.2 ≤ l.brk
  apart : l.ranges.Pairwise fun r r' => r'.1 + r'.2 ≤ r.1

namespace BrkInv

variable {l : LibSbrk}

theorem congr (h : BrkInv k i l) (hl : k.Live i) (hs : SameMap k k' i) : BrkInv k' i l :=
  ⟨hs.heapMapped hl h.mapped, h.ge, (hs.heapEnd hl).trans h.synced, h.inside, h.apart⟩

/-- A program that has not called `sbrk`. -/
theorem fresh (hheap : (k.procs i).heapEnd = 0x3001000)
    (hdata : ∀ v, DataPage 0x1020000 0x1010000 0x3000000 v → DataLeaf (k.map i v)) : BrkInv k i {} :=
  ⟨heapMapped_of_data hheap hdata, Nat.le_refl _, hheap, fun _ hr => absurd hr List.not_mem_nil, .nil⟩

theorem ok (h : BrkInv k i l) (hv : k.Valid L F) (hl : k.Live i) : BrkOk k i l := by
  refine ⟨h.synced, fun r hr va h1 h2 => ?_, h.apart⟩
  obtain ⟨h3, h4⟩ := h.inside r hr
  have hs := h.synced
  exact h.mapped.ownByte hv hl (by omega) (by omega)

/-- A call of the library's `sbrk`: the kernel and the library add the same to their breaks. -/
theorem sbrk (h : BrkInv k c l) (hg : Grown k c inc k') (hv : k.Valid L F) (hv' : k'.Valid L F') (hl : k.Live c)
    (h0 : 0 ≤ inc) (hlt : inc < 2 ^ 63) :
    l.sbrk inc (BitVec.ofNat 64 (k.procs c).heapEnd) =
      { heapEnd := l.brk + inc.toNat, ranges := (l.brk, inc.toNat) :: l.ranges } ∧ l.brk + inc.toNat ≠ 0 ∧
      BrkInv k' c (l.sbrk inc (BitVec.ofNat 64 (k.procs c).heapEnd)) := by
  have hle := h.mapped.le hv hl
  have hge := h.ge
  have hs := h.synced
  obtain ⟨hm, hadd⟩ := hg.heapMapped hv hv' hl h.mapped (by omega) hlt
  have hle' := hm.le hv' hg.live
  have hres : ¬(BitVec.ofNat 64 (k.procs c).heapEnd).toInt < 0 := by
    have hnat : (BitVec.ofNat 64 (k.procs c).heapEnd).toNat = (k.procs c).heapEnd := by
      rw [BitVec.toNat_ofNat, Nat.mod_eq_of_lt (by omega)]
    rw [BitVec.toInt_eq_toNat_of_lt (by omega), hnat]
    omega
  have hnew : ((l.brk + inc) % 2 ^ 64).toNat = l.brk + inc.toNat := by omega
  have heq : l.sbrk inc (BitVec.ofNat 64 (k.procs c).heapEnd) =
      { heapEnd := l.brk + inc.toNat, ranges := (l.brk, inc.toNat) :: l.ranges } := by
    unfold LibSbrk.sbrk
    rw [if_neg hres, hnew]
  have hbrk : LibSbrk.brk { heapEnd := l.brk + inc.toNat, ranges := (l.brk, inc.toNat) :: l.ranges } =
      l.brk + inc.toNat := if_neg (show l.brk + inc.toNat ≠ 0 by omega)
  rw [heq]
  refine ⟨rfl, by omega, hm, by rw [hbrk]; omega, by rw [hbrk]; omega, fun r hr => ?_, List.pairwise_cons.mpr ⟨fun r hr => ?_, h.apart⟩⟩
  · rw [hbrk]
    rcases List.mem_cons.mp hr with rfl | hr
    · exact ⟨by show 0x3000000 ≤ l.brk; omega, Nat.le_refl _⟩
    · have := h.inside r hr
      omega
  · exact (h.inside r hr).2

end BrkInv

/-- In every state of a run: some process runs, and the break of every process is well formed. -/
structure Brk.Ok (L : Layout) (b : Brk) : Prop where
  running : ∃ F c, Running L b.machine.kernel F c
  inv : ∀ i, b.machine.kernel.Live i → BrkInv b.machine.kernel i (b.lib i)

/-- The increment is a signed number of 64 bits. -/
theorem request_sbrk_lt (h : t.request = some (.sbrk inc)) : -2 ^ 63 ≤ inc ∧ inc < 2 ^ 63 := by
  unfold Trap.request at h
  split at h
  · cases h
  · simp only [callOf] at h
    split at h <;> simp only [Option.some.injEq, reduceCtorEq, Call.sbrk.injEq] at h
    rw [← h]
    exact ⟨BitVec.le_toInt _, BitVec.toInt_lt⟩

theorem maps_of_sbrk (h : t.request = some (.sbrk inc)) : t.Maps := fun call hc => by
  obtain rfl : Call.sbrk inc = call := Option.some.inj (h.symm.trans hc)
  trivial

/-- One trap. After `sbrk` the caller has one range more. -/
theorem BrkStep.ok {b b' : Brk} (hfs : ∀ f ∈ fs, f.2.Linked) (hb : b.Ok L) (h : BrkStep L fs b t b') :
    b'.Ok L ∧ ∀ inc, t.request = some (.sbrk inc) →
      (b'.lib b.machine.kernel.cur).heapEnd = (b.lib b.machine.kernel.cur).brk + inc.toNat ∧
      (b'.lib b.machine.kernel.cur).heapEnd ≠ 0 ∧
      (b'.lib b.machine.kernel.cur).ranges =
        ((b.lib b.machine.kernel.cur).brk, inc.toNat) :: (b.lib b.machine.kernel.cur).ranges := by
  obtain ⟨F, c, hr⟩ := hb.running
  obtain ⟨hmap, F', c', hr'⟩ := h.step.remaps hfs hr h.maps
  have hcur := hr.cur
  have hlib := h.lib
  unfold Brk.libAfter at hlib
  rw [hcur] at hlib ⊢
  -- the maps and the libraries stay as they are
  have hsame : (∀ i, SameMap b.machine.kernel b'.machine.kernel i) → b'.lib = b.lib → b'.Ok L := by
    intro hs he
    refine ⟨⟨F', c', hr'⟩, fun i hl => ?_⟩
    have hl' := (hs i).live.mp hl
    rw [he]
    exact (hb.inv i hl').congr hl' (hs i)
  -- process `j` has a new map or a new library
  have hone : ∀ j, (∀ i, i ≠ j → SameMap b.machine.kernel b'.machine.kernel i) →
      (∀ i, i ≠ j → b'.lib i = b.lib i) → BrkInv b'.machine.kernel j (b'.lib j) → b'.Ok L := by
    intro j hs he hj
    refine ⟨⟨F', c', hr'⟩, fun i hl => ?_⟩
    by_cases hij : i = j
    · exact hij ▸ hj
    · have hl' := (hs i hij).live.mp hl
      rw [he i hij]
      exact (hb.inv i hl').congr hl' (hs i hij)
  cases hmap with
  | timer hreq hs =>
      simp only [hreq] at hlib
      exact ⟨hsame hs hlib, fun _ h => by rw [hreq] at h; cases h⟩
  | forkNone hreq hfull hs =>
      simp only [hreq, hfull] at hlib
      exact ⟨hsame hs hlib, fun _ h => by rw [hreq] at h; cases h⟩
  | execNone hreq hlookup hs =>
      simp only [hreq, hlookup] at hlib
      exact ⟨hsame hs hlib, fun _ h => by rw [hreq] at h; cases h⟩
  | @sbrk inc hreq hg _ hres =>
      simp only [hreq] at hlib
      obtain ⟨heq, hne, hinv⟩ := (hb.inv c hr.live).sbrk hg hr.toValid hr'.toValid hr.live (h.nonneg inc hreq)
        (request_sbrk_lt hreq).2
      rw [← hres] at heq hinv
      have hself : b'.lib c = (b.lib c).sbrk inc (b'.machine.user 10) := by rw [hlib, Function.update_self]
      refine ⟨hone c hg.others (fun i hi => by rw [hlib, Function.update_of_ne hi]) (hself ▸ hinv),
        fun inc' hreq' => ?_⟩
      obtain rfl : inc = inc' := by simpa using hreq.symm.trans hreq'
      rw [hself, heq]
      exact ⟨rfl, hne, rfl⟩
  | @fork j hreq hslot hcopy =>
      simp only [hreq, hslot] at hlib
      have hself : b'.lib j = b.lib c := by rw [hlib, Function.update_self]
      refine ⟨hone j hcopy.others (fun i hi => by rw [hlib, Function.update_of_ne hi]) ?_,
        fun _ h => by rw [hreq] at h; cases h⟩
      have hinv := hb.inv c hr.live
      rw [hself]
      exact ⟨hcopy.heapMapped hr.toValid hr.live hcur hinv.mapped, hinv.ge, hcopy.heapEnd.trans hinv.synced, hinv.inside,
        hinv.apart⟩
  | exec hreq hlookup hren =>
      simp only [hreq, hlookup] at hlib
      have hself : b'.lib c = {} := by rw [hlib, Function.update_self]
      refine ⟨hone c hren.others (fun i hi => by rw [hlib, Function.update_of_ne hi]) ?_,
        fun _ h => by rw [hreq] at h; cases h⟩
      rw [hself]
      exact .fresh hren.heapEnd hren.data

theorem BrkStart.ok {b : Brk} (hfs : ∀ f ∈ fs, f.2.Linked) (h : BrkStart L fs b) : b.Ok L := by
  obtain ⟨m, hm⟩ := h.start.kernel
  obtain ⟨F, hb, _⟩ := kernelMain_booted hfs hm
  refine ⟨⟨F, 1, hb.running⟩, fun i hl => ?_⟩
  rw [h.lib]
  exact .fresh (hb.heap i hl) (hb.data i hl)

/-- With three pages for each page of the heap, `sys_sbrk` succeeds. -/
theorem Kernel.Running.sysSbrk_total (hr : Running L k F c)
    (hroom : 3 * Phys.pagesUpTo (pgRoundUp (k.procs k.cur).heapEnd)
      (((k.procs k.cur).heapEnd + inc) % 2 ^ 64).toNat ≤ k.phys.room L) :
    ∃ r, k.sysSbrk L inc = .ok r := by
  unfold sysSbrk
  split
  · have hsp := hr.spaceOk
    rw [← hr.cur] at hsp
    have he := Extend.refl (o := k.owner) (C := fun _ _ _ => True) hr.ok hr.track hsp
    obtain ⟨s, h, _⟩ := he.mapLoop_room (fun _ => (0, 0)) (pgRoundUp (k.procs k.cur).heapEnd)
      (by decide : pteU ||| pteR ||| pteW ||| pteV < 1024) (by decide) (by decide)
      (by unfold pgRoundUp; omega) (fun _ => Nat.zero_le _) hroom
    exact ⟨_, bind_eq_ok.mpr ⟨s, h, rfl⟩⟩
  · exact ⟨_, rfl⟩

/-- The first call of the shell is one of `sbrk`. -/
theorem Machine.exists_sbrk (L : Layout) {n : Nat} (hpos : 0 < n) (hle : n ≤ 4096) :
    ∃ (s : Machine) (t : Trap) (s' : Machine) (F : List Nat), s.Start L tinyFs ∧ s.Step L tinyFs t s' ∧
      t.request = some (.sbrk n) ∧ Booted L s.kernel F ∧ Grown s.kernel 1 n s'.kernel := by
  obtain ⟨s, F, hstart, _, hfree, hboot, hroom⟩ := exists_shell L []
  obtain ⟨t, ht, -⟩ := hfree.call 401 n 0 0 [] []
  have hint : (BitVec.ofNat 64 n).toInt = n := by
    have hnat : (BitVec.ofNat 64 n).toNat = n := by
      rw [BitVec.toNat_ofNat, Nat.mod_eq_of_lt (by omega)]
    rw [BitVec.toInt_eq_toNat_of_lt (by omega), hnat]
  have hcall : callOf t.frame = some (.sbrk n) := by
    rw [ht.frame, show callOf (callFrame 401 n 0 0) = some (.sbrk (BitVec.ofNat 64 n).toInt) from rfl, hint]
  have hreq : t.request = some (.sbrk n) := by rw [Trap.request, ht.cause, hcall]
  have hheap : ((s.inKernel L t).procs (s.inKernel L t).cur).heapEnd = 0x3001000 := by
    rw [ht.running.cur]
    exact hboot.heap 1 hboot.live_shell
  have hroom' : 14799 ≤ (s.inKernel L t).phys.room L := hroom
  obtain ⟨⟨ret, k'⟩, hs⟩ : ∃ r, (s.inKernel L t).sysSbrk L n = .ok r := by
    refine ht.running.sysSbrk_total (Nat.le_trans ?_ hroom')
    rw [hheap, show pgRoundUp 0x3001000 = 0x3001000 by decide]
    unfold Phys.pagesUpTo
    split <;> omega
  obtain ⟨rfl, -, -⟩ := ht.running.sysSbrk_grown hs
  have hhandle : (s.inKernel L t).handleSyscall L tinyFs s.input t.now (.sbrk n) =
      .ok (.value ((s.inKernel L t).procs 1).heapEnd, k', s.input) := by
    simp only [Kernel.handleSyscall, hs, ok_bind]
  have htrap := trap_value ht.cause hcall hhandle
  generalize goOn L (setResult L k' s.kernel.cur ((s.inKernel L t).procs 1).heapEnd) s.kernel.cur
    s.input _ (t.frame tfPc + 4) = s' at htrap
  obtain ⟨hmap, -⟩ := Step.remaps tinyFs_linked hboot.running (maps_of_sbrk hreq) ⟨ht.runs, htrap⟩
  refine ⟨s, t, s', F, hstart, ⟨ht.runs, htrap⟩, hreq, hboot, ?_⟩
  cases hmap with
  | @sbrk inc h hg _ _ =>
      obtain rfl : (n : Int) = inc := by simpa using hreq.symm.trans h
      exact hg
  | timer h _ | forkNone h _ _ | fork h _ _ | execNone h _ _ | exec h _ _ =>
      rw [hreq] at h
      cases h

/-- The shell calls `sbrk(1)` first. -/
structure FirstSbrk (L : Layout) (b₀ : Brk) (t : Trap) (b : Brk) : Prop where
  start : BrkStart L tinyFs b₀
  step : BrkStep L tinyFs b₀ t b
  request : t.request = some (.sbrk 1)
  cur : b₀.machine.kernel.cur = 1
  live : b.machine.kernel.Live 1
  identity : ∀ pa, IdentityPage L pa → b.machine.kernel.map 1 (vpn pa) = identityEntry pa

theorem exists_firstSbrk (L : Layout) : ∃ b₀ t b, FirstSbrk L b₀ t b := by
  obtain ⟨s, t, s', F, hstart, hs, hreq, hboot, hg⟩ := Machine.exists_sbrk L (n := 1) (by decide) (by decide)
  have hheap := hboot.heap 1 hboot.live_shell
  refine ⟨⟨s, fun _ => {}⟩, t, ⟨s', Brk.libAfter L tinyFs ⟨s, fun _ => {}⟩ t (s'.user 10)⟩, ⟨hstart, rfl⟩,
    ⟨hs, maps_of_sbrk hreq, fun inc h => ?_, rfl⟩, hreq, hboot.cur, hg.live, fun pa hpa => ?_⟩
  · obtain rfl : 1 = inc := by simpa using hreq.symm.trans h
    decide
  · rw [hg.kernel_same (by rw [hheap]; decide) (by rw [hg.heapEnd, hheap]; decide) hpa]
    exact hboot.identity 1 hboot.live_shell pa hpa

end RiscvOs
