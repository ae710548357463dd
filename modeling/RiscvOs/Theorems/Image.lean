import RiscvOs.Theorems.Arguments
import RiscvOs.Image

/-!
# Where the loader stores

The flat image is as large as the segments are in memory, and as many bytes are copied as they have in the file.
The exact condition on the program headers under which every store lies in the image.
-/

namespace RiscvOs

open ByteMem Outcome Kernel

variable {L : Layout} {k k' : Kernel} {F : List Nat} {elf : Elf} {elfData flat o n j : Nat} {p : Phdr} {ps : List Phdr}
  {m m' : Mem} {s : Phys}

/-- The kernel ends in `PANIC`, at once or through a page fault. -/
def Halt.Panics : Halt → Prop
  | .panic _ _ => True
  | .fault _ => True
  | _ => False

/-- The image lies in free RAM, nothing outside of it is written, and its pages have their place below the kernel. -/
structure LoadedInside (L : Layout) (k : Kernel) (elf : Elf) (flat : Nat) (k' : Kernel) : Prop where
  ge : L.freeRam ≤ flat
  le : flat + elf.imageSize ≤ L.freeRamEnd
  outside : ∀ a, ¬(flat ≤ a ∧ a < flat + elf.imageSize) → k'.phys.mem a = k.phys.mem a
  below : ∀ i < imagePages elf, userBase + i * 4096 + 4096 ≤ kernelBase

/-- The loader panics, or it stays inside the image. -/
def Kernel.LoadsSafely (L : Layout) (k : Kernel) (elf : Elf) (elfData : Nat) : Prop :=
  (∃ h, k.loadFile L elf elfData = .error h ∧ h.Panics) ∨
    ∃ flat k', k.loadFile L elf elfData = .ok (flat, k') ∧ LoadedInside L k elf flat k'

/-! ## The condition -/

namespace Elf

/-- The bytes of the segment in the file have a place in the image. -/
def Within (elf : Elf) (p : Phdr) : Prop := p.pFilesz = 0 ∨ p.pVaddr - elf.minVaddr + p.pFilesz ≤ elf.imageSize

/-- A byte of the copy faults, and all bytes before it have a place in the image. -/
def FaultsFirst (L : Layout) (elf : Elf) (elfData flat : Nat) (p : Phdr) : Prop :=
  ∃ j < p.pFilesz, (∀ i < j, p.pVaddr - elf.minVaddr + i < elf.imageSize) ∧
    ¬(L.Mapped ((elfData + p.pOffset + j) % 2 ^ 64) ∧ L.Mapped ((flat + (p.pVaddr - elf.minVaddr) + j) % 2 ^ 64))

/-- Every segment before the first that faults lies within the image. -/
def Contained (L : Layout) (elf : Elf) (elfData flat : Nat) : List Phdr → Prop
  | [] => True
  | p :: ps => elf.FaultsFirst L elfData flat p ∨ elf.Within p ∧ elf.Contained L elfData flat ps

/-! ## Copying a segment -/

theorem minVaddr_le (hp : p ∈ elf.loads) : elf.minVaddr ≤ p.pVaddr :=
  (Nat.div_mul_le_self ..).trans (foldl_min_le hp)

theorem imageSize_mod (elf : Elf) : elf.imageSize % 4096 = 0 := by
  unfold imageSize maxVaddr minVaddr pgRoundUp
  omega

theorem imageSize_lt (elf : Elf) : elf.imageSize < 2 ^ 64 := Nat.mod_lt _ (by decide)

/-- Byte `j` of a segment goes to the image, as long as those before it have done so. -/
theorem dest_inside_iff (hlt : p.pVaddr - elf.minVaddr < 2 ^ 64) (hflat : flat + elf.imageSize < 2 ^ 64)
    (hj : j = 0 ∨ p.pVaddr - elf.minVaddr + j ≤ elf.imageSize) :
    flat ≤ (flat + (p.pVaddr - elf.minVaddr) + j) % 2 ^ 64 ∧
      (flat + (p.pVaddr - elf.minVaddr) + j) % 2 ^ 64 < flat + elf.imageSize ↔
        p.pVaddr - elf.minVaddr + j < elf.imageSize := by
  have := elf.imageSize_lt
  omega

/-- How the copy of a segment ends. -/
theorem copyBytes_cases (hmin : elf.minVaddr ≤ p.pVaddr) (hlt : p.pVaddr < 2 ^ 64) (hflat : flat + elf.imageSize < 2 ^ 64)
    (hj : ∀ i < j, p.pVaddr - elf.minVaddr + i < elf.imageSize) (hn : j + n = p.pFilesz) :
    (∃ m', elf.copyBytes L elfData flat p m j n = .ok m' ∧
      (∀ a, ¬(flat ≤ a ∧ a < flat + elf.imageSize) → m' a = m a) ∧
      ∀ i, j ≤ i → i < p.pFilesz → p.pVaddr - elf.minVaddr + i < elf.imageSize ∧
        L.Mapped ((elfData + p.pOffset + i) % 2 ^ 64) ∧ L.Mapped ((flat + (p.pVaddr - elf.minVaddr) + i) % 2 ^ 64)) ∨
    (∃ va, elf.copyBytes L elfData flat p m j n = .error (.fault va)) ∧ elf.FaultsFirst L elfData flat p ∨
    elf.copyBytes L elfData flat p m j n = .error .undefined ∧ ∃ i, j ≤ i ∧ i < p.pFilesz ∧
      ¬p.pVaddr - elf.minVaddr + i < elf.imageSize ∧ ∀ x, j ≤ x → x ≤ i →
        L.Mapped ((elfData + p.pOffset + x) % 2 ^ 64) ∧ L.Mapped ((flat + (p.pVaddr - elf.minVaddr) + x) % 2 ^ 64) := by
  induction n generalizing m j with
  | zero => exact .inl ⟨m, rfl, fun _ _ => rfl, by omega⟩
  | succ n ih =>
      have hdest : (flat + (p.pVaddr + (2 ^ 64 - elf.minVaddr)) + j) % 2 ^ 64 =
          (flat + (p.pVaddr - elf.minVaddr) + j) % 2 ^ 64 := by omega
      rw [copyBytes, hdest]
      by_cases hsrc : L.Mapped ((elfData + p.pOffset + j) % 2 ^ 64)
      case neg =>
        exact .inr (.inl ⟨⟨_, if_pos hsrc⟩, j, by omega, hj, fun h => hsrc h.1⟩)
      rw [if_neg (not_not.mpr hsrc)]
      by_cases hdst : L.Mapped ((flat + (p.pVaddr - elf.minVaddr) + j) % 2 ^ 64)
      case neg =>
        exact .inr (.inl ⟨⟨_, if_pos hdst⟩, j, by omega, hj, fun h => hdst h.2⟩)
      rw [if_neg (not_not.mpr hdst)]
      have hin := dest_inside_iff (by omega) hflat (p := p) (j := j) (by
        cases j with
        | zero => exact .inl rfl
        | succ j => exact .inr (hj j (Nat.lt_succ_self j)))
      by_cases hlast : p.pVaddr - elf.minVaddr + j < elf.imageSize
      case neg =>
        rw [if_neg (mt hin.mp hlast)]
        refine .inr (.inr ⟨rfl, j, Nat.le_refl j, by omega, hlast, fun x h1 h2 => ?_⟩)
        obtain rfl : x = j := by omega
        exact ⟨hsrc, hdst⟩
      rw [if_pos (hin.mpr hlast)]
      rcases @ih (j + 1) _ (fun i hi => (Nat.lt_succ_iff_lt_or_eq.mp hi).elim (hj i) fun h => h ▸ hlast) (by omega) with
        ⟨m', h, hout, hall⟩ | ⟨h, hfault⟩ | ⟨h, i, h1, h2, h3, h4⟩
      · refine .inl ⟨m', h, fun a ha => ?_, fun i h1 h2 => ?_⟩
        · rw [hout a ha, Function.update_of_ne]
          rintro rfl
          exact ha (hin.mpr hlast)
        · rcases Nat.eq_or_lt_of_le h1 with rfl | h1
          · exact ⟨hlast, hsrc, hdst⟩
          · exact hall i h1 h2
      · exact .inr (.inl ⟨h, hfault⟩)
      · refine .inr (.inr ⟨h, i, by omega, h2, h3, fun x hx1 hx2 => ?_⟩)
        rcases Nat.eq_or_lt_of_le hx1 with rfl | hx1
        · exact ⟨hsrc, hdst⟩
        · exact h4 x hx1 hx2

/-- How the copies of the segments end. -/
theorem copyLoads_cases (hmin : ∀ p ∈ ps, elf.minVaddr ≤ p.pVaddr ∧ p.pVaddr < 2 ^ 64)
    (hflat : flat + elf.imageSize < 2 ^ 64) :
    (∃ m', elf.copyLoads L elfData flat m ps = .ok m' ∧
      ∀ a, ¬(flat ≤ a ∧ a < flat + elf.imageSize) → m' a = m a) ∧ elf.Contained L elfData flat ps ∨
    (∃ va, elf.copyLoads L elfData flat m ps = .error (.fault va)) ∧ elf.Contained L elfData flat ps ∨
    elf.copyLoads L elfData flat m ps = .error .undefined ∧ ¬elf.Contained L elfData flat ps := by
  induction ps generalizing m with
  | nil => exact .inl ⟨⟨m, rfl, fun _ _ => rfl⟩, trivial⟩
  | cons p ps ih =>
      obtain ⟨hp, hps⟩ := List.forall_mem_cons.mp hmin
      rw [copyLoads]
      rcases copyBytes_cases (L := L) (m := m) hp.1 hp.2 hflat (fun i hi => absurd hi (Nat.not_lt_zero i)) (Nat.zero_add _) with
        ⟨m', h, hout, hall⟩ | ⟨⟨va, h⟩, hfault⟩ | ⟨h, i, -, hi, hnot, hmapped⟩
      · have hwithin : elf.Within p := by
          rcases Nat.eq_zero_or_pos p.pFilesz with h0 | hpos
          · exact .inl h0
          · have := (hall (p.pFilesz - 1) (Nat.zero_le _) (by omega)).1
            exact .inr (by omega)
        have hfirst : ¬elf.FaultsFirst L elfData flat p := by
          rintro ⟨j, hj, -, hno⟩
          exact hno (hall j (Nat.zero_le _) hj).2
        have hcont : elf.Contained L elfData flat (p :: ps) ↔ elf.Contained L elfData flat ps :=
          ⟨fun hc => (hc.resolve_left hfirst).2, fun hc => .inr ⟨hwithin, hc⟩⟩
        rw [h, ok_bind, hcont]
        rcases @ih m' hps with ⟨⟨m'', h', hout'⟩, hc⟩ | h' | h'
        · exact .inl ⟨⟨m'', h', fun a ha => (hout' a ha).trans (hout a ha)⟩, hc⟩
        · exact .inr (.inl h')
        · exact .inr (.inr h')
      · exact .inr (.inl ⟨⟨va, by rw [h]; rfl⟩, .inl hfault⟩)
      · refine .inr (.inr ⟨by rw [h]; rfl, ?_⟩)
        rintro (⟨j, hj, hin, hno⟩ | ⟨hw, -⟩)
        · by_cases hij : i < j
          · exact hnot (hin i hij)
          · exact hno (hmapped j (Nat.zero_le _) (by omega))
        · rcases hw with h0 | hle
          · omega
          · omega

end Elf

/-! ## The page table of the kernel -/

theorem translate_of_entry {root va mask : Nat} (pa flags : Nat) (h : leafAt m root (vpn va) = pa2pte pa flags)
    (hpa : pa % 4096 = 0) (hlt : pa < 2 ^ 56) (hf : flags < 1024) (hmask : mask < 1024) (hv : pteHas flags pteV)
    (hm : pteHas flags mask) (hva : va < 2 ^ 38) : Phys.translate m root va mask = some (pa + va % 4096) := by
  rw [Phys.translate, leafPte_eq, h, pteHas_pa2pte hf (by decide), pteHas_pa2pte hf hmask, hv, hm,
    pte2pa_pa2pte hpa hlt hf, decide_eq_true hva]
  rfl

/-- The map that `paging_init` makes. -/
theorem pagingInit_translate {va mask : Nat} (hs : AllocOk L k.phys F) (ht : TrackOk L k.phys F)
    (h : k.pagingInit L = .ok k') (hva : va < 2 ^ 64) (hmask : mask = pteR ∨ mask = pteW) :
    Phys.translate k'.phys.mem k'.satp va mask = if L.Mapped va then some va else none := by
  unfold pagingInit at h
  simp only [bind_eq_ok, Prod.exists, Except.ok.injEq] at h
  obtain ⟨pt, s₁, h1, s₂, h2, s₃, h3, rfl⟩ := h
  obtain ⟨F₁, hb⟩ := allocPages_one hs ht h1
  have hp := hs.isPage hb.was_one
  have hz := hb.zero hp
  have hend := L.ram_le
  have hbase := L.kernelBase_lt_freeRam
  have hal := L.freeRam_aligned
  have hheap : L.heapEnd = L.freeRam + 0x6000000 := by
    unfold Layout.heapEnd Layout.freeRamEnd
    omega
  have hpages : kernelBase + 4096 * Phys.pagesUpTo kernelBase L.heapEnd = L.heapEnd := by
    unfold Phys.pagesUpTo
    rw [if_neg (by omega)]
    unfold kernelBase at *
    omega
  generalize Phys.pagesUpTo kernelBase L.heapEnd = n at h2 hpages
  obtain ⟨F₂, hr⟩ := mapRange_spec hb.grows.ok hb.grows.track (.of_zero hp hb.not_avail hz) (by omega) (by decide) h2
  obtain ⟨F₃, hr'⟩ := mapRange_spec hr.grows.ok hr.grows.track hr.tables (by decide) (by decide) h3
  have hzero : leafAt s₁.mem pt = fun _ => 0 := funext fun v => leafAt_of_zero hp hz v
  have hleaf := hr'.leaf
  rw [hr.leaf, hzero] at hleaf
  show Phys.translate s₃.mem pt va mask = _
  have hlt : mask < 1024 := by rcases hmask with rfl | rfl <;> decide
  unfold kernelBase at *
  by_cases hm : L.Mapped va
  · rw [if_pos hm]
    rcases hm with ⟨hlo, hhi⟩ | ⟨hlo, hhi⟩
    · unfold kernelBase at hlo
      obtain ⟨i, hi⟩ : ∃ i, i = (va - 0x80200000) / 4096 := ⟨_, rfl⟩
      have hv : vpn va = vpn (0x80200000 + 4096 * i) := vpn_eq_iff.mpr (by omega)
      rw [translate_of_entry (0x80200000 + 4096 * i) (pteV ||| pteRWX ||| pteV) ?_ (by omega) (by omega) (by decide) hlt
        (by decide) (by rcases hmask with rfl | rfl <;> decide) (by omega)]
      · exact congrArg some (by omega)
      · rw [hleaf, rangeMap_outside fun j hj he => ?_, hv, rangeMap_inside (by omega) (by omega)]
        rw [vpn_eq_iff] at he
        omega
    · obtain ⟨i, hi⟩ : ∃ i, i = (va - 0x10001000) / 4096 := ⟨_, rfl⟩
      have hv : vpn va = vpn (0x10001000 + 4096 * i) := vpn_eq_iff.mpr (by omega)
      rw [translate_of_entry (0x10001000 + 4096 * i) (pteV ||| pteR ||| pteW ||| pteV) ?_ (by omega) (by omega)
        (by decide) hlt (by decide) (by rcases hmask with rfl | rfl <;> decide) (by omega)]
      · exact congrArg some (by omega)
      · rw [hleaf, hv, rangeMap_inside (by omega) (by decide)]
  · rw [if_neg hm, Phys.translate, leafPte_eq]
    by_cases hcan : va < 2 ^ 38 ∨ 2 ^ 64 - 2 ^ 38 ≤ va
    · have hout : leafAt s₃.mem pt (vpn va) = 0 := by
        unfold Layout.Mapped kernelBase at hm
        rw [hleaf, rangeMap_outside fun j hj he => ?_, rangeMap_outside fun j hj he => ?_] <;> rw [vpn_eq_iff] at he <;>
          omega
      simp [hout]
    · rw [if_neg]
      simpa using fun h => absurd h hcan

/-! ## The loader -/

/-- `alloc_pages` stops the kernel when free RAM is used up, unless the end of the block wraps. -/
theorem AllocOk.allocPages_cases (hs : AllocOk L s F) (hn : n * 4096 < 2 ^ 64) :
    (∃ s', s.allocPages L o n = .ok (s.nextBlock n, s') ∧ s'.mem = memset s.mem (s.nextBlock n) 0 (n * 4096)) ∧
        L.freeRam ≤ s.nextBlock n ∧ s.nextBlock n + n * 4096 ≤ L.freeRamEnd ∨
      (s.allocPages L o n = .error (.panic "out of memory" []) ∧ L.freeRamEnd < s.nextBlock n + n * 4096 ∧
        s.nextBlock n + n * 4096 < 2 ^ 64) ∨
      (∃ s', s.allocPages L o n = .ok (s.nextBlock n, s')) ∧ 2 ^ 64 ≤ s.nextBlock n + n * 4096 := by
  have hge := hs.next_ge
  have hle := hs.next_le
  have hend := L.freeRamEnd_lt
  unfold Phys.allocPages Phys.nextBlock
  by_cases h1 : n = 1
  case pos =>
    subst h1
    by_cases hfl : s.freeList = 0
    · simp only [Phys.allocFreeList, hfl, ne_eq, not_true_eq_false, and_false, if_true, if_false]
      by_cases hfull : (s.nextPaddr + 4096) % 2 ^ 64 > L.freeRamEnd
      · rw [if_pos hfull]
        exact .inr (.inl ⟨rfl, by omega, by omega⟩)
      · rw [if_neg hfull]
        exact .inl ⟨⟨_, rfl, by simp⟩, hge, by omega⟩
    · obtain ⟨hp, -⟩ := hs.page s.freeList (by
        have hc := hs.chain
        cases F with
        | nil => exact absurd hc hfl
        | cons x xs =>
            obtain rfl : s.freeList = x := hc.1
            exact List.mem_cons_self)
      simp only [Phys.allocFreeList, hfl, ne_eq, not_false_eq_true, and_self, if_true, if_false]
      have := hp.end_le
      exact .inl ⟨⟨_, rfl, by simp⟩, hp.ge, by omega⟩
  case neg =>
    simp only [h1, false_and, if_false]
    by_cases hfull : (s.nextPaddr + n * 4096) % 2 ^ 64 > L.freeRamEnd
    · rw [if_pos hfull]
      exact .inr (.inl ⟨rfl, by omega, by omega⟩)
    · rw [if_neg hfull]
      by_cases hwrap : 2 ^ 64 ≤ s.nextPaddr + n * 4096
      · exact .inr (.inr ⟨⟨_, rfl⟩, hwrap⟩)
      · refine .inl ⟨⟨_, rfl, ?_⟩, hge, by omega⟩
        rw [Phys.trackAlloc_mem, Nat.mod_eq_of_lt hn]

theorem imagePages_mul (elf : Elf) : imagePages elf * 4096 = elf.imageSize := by
  have := elf.imageSize_mod
  unfold imagePages
  omega

/-- Without one of the symbols the loader panics. -/
theorem readSymbols_cases (k : Kernel) (elf : Elf) :
    (∃ h, k.readSymbols elf = .error h ∧ h.Panics) ∨ ∃ k', k.readSymbols elf = .ok k' ∧ k'.phys = k.phys := by
  have hget : ∀ name, (∃ fmt, elf.getSymbolAddress name = .error (.panic fmt [])) ∨
      ∃ a, elf.getSymbolAddress name = .ok a := fun name => by
    unfold Elf.getSymbolAddress
    split
    · exact .inl ⟨_, rfl⟩
    · split
      · exact .inr ⟨_, rfl⟩
      · exact .inl ⟨_, rfl⟩
  unfold readSymbols
  rcases hget "__user_stack_top" with ⟨_, h⟩ | ⟨top, h⟩
  · exact .inl ⟨.panic _ _, by rw [h]; rfl, trivial⟩
  rw [h, ok_bind]
  rcases hget "__user_stack_bottom" with ⟨_, h⟩ | ⟨bottom, h⟩
  · exact .inl ⟨.panic _ _, by rw [h]; rfl, trivial⟩
  rw [h, ok_bind]
  rcases hget "__user_heap_start" with ⟨_, h⟩ | ⟨heapStart, h⟩
  · exact .inl ⟨.panic _ _, by rw [h]; rfl, trivial⟩
  rw [h, ok_bind]
  rcases hget "__user_heap_end" with ⟨_, h⟩ | ⟨heapEnd, h⟩
  · exact .inl ⟨.panic _ _, by rw [h]; rfl, trivial⟩
  rw [h, ok_bind]
  exact .inr ⟨_, rfl, rfl⟩

/-- What happens once the image has its place in free RAM. -/
theorem fillImage_cases (elfData : Nat) (hle : flat + elf.imageSize ≤ L.freeRamEnd) (hv : ∀ p ∈ elf.loads, p.pVaddr < 2 ^ 64) :
    ((∃ h, k.fillImage L elf elfData flat = .error h ∧ h.Panics) ∨ ∃ k', k.fillImage L elf elfData flat = .ok (flat, k') ∧
        ∀ a, ¬(flat ≤ a ∧ a < flat + elf.imageSize) → k'.phys.mem a = k.phys.mem a) ∧
      elf.Contained L elfData flat elf.loads ∨
    k.fillImage L elf elfData flat = .error .undefined ∧ ¬elf.Contained L elfData flat elf.loads := by
  have hend := L.freeRamEnd_lt
  rw [fillImage, if_neg (by omega)]
  rcases Elf.copyLoads_cases (L := L) (m := memset k.phys.mem flat 0 elf.imageSize)
    (fun p hp => ⟨Elf.minVaddr_le hp, hv p hp⟩) (show flat + elf.imageSize < 2 ^ 64 by omega) with
    ⟨⟨m', h, hout⟩, hc⟩ | ⟨⟨va, h⟩, hc⟩ | ⟨h, hc⟩
  · rw [h, ok_bind]
    rcases readSymbols_cases { k with phys := { k.phys with mem := m' } } elf with ⟨e, hsym, he⟩ | ⟨k', hsym, hphys⟩
    · exact .inl ⟨.inl ⟨e, by rw [hsym]; rfl, he⟩, hc⟩
    · rw [hsym]
      refine .inl ⟨.inr ⟨k', rfl, fun a ha => ?_⟩, hc⟩
      rw [hphys]
      exact (hout a ha).trans (memset_outside ha)
  · exact .inl ⟨.inl ⟨.fault va, by rw [h]; rfl, trivial⟩, hc⟩
  · exact .inr ⟨by rw [h]; rfl, hc⟩

/-- For any file with the magic number and in every state of the allocator, the loader panics or stays inside the
image exactly when the end of the image does not wrap and, if there is room for it, every segment before the first
that faults lies within it. -/
theorem loadFile_safe_iff (hs : AllocOk L k.phys F) (hmagic : elf.eMagic = elfMagic)
    (hv : ∀ p ∈ elf.loads, p.pVaddr < 2 ^ 64) :
    k.LoadsSafely L elf elfData ↔ k.phys.nextBlock (imagePages elf) + elf.imageSize < 2 ^ 64 ∧
      (k.phys.nextBlock (imagePages elf) + elf.imageSize ≤ L.freeRamEnd →
        elf.Contained L elfData (k.phys.nextBlock (imagePages elf)) elf.loads) := by
  have hsize := imagePages_mul elf
  have hend := L.freeRamEnd_lt
  have hram := L.freeRam_lt_end
  have halloc := hs.allocPages_cases (o := k.owner) (n := imagePages elf) (by have := elf.imageSize_lt; omega)
  rw [hsize] at halloc
  generalize k.phys.nextBlock (imagePages elf) = flat at halloc ⊢
  have hload : k.loadFile L elf elfData = k.phys.allocPages L k.owner (imagePages elf) >>= fun r =>
      Kernel.fillImage L { k with phys := r.2 } elf elfData r.1 := if_neg (not_not.mpr hmagic)
  have hundef : k.loadFile L elf elfData = .error .undefined → ¬k.LoadsSafely L elf elfData := by
    rintro h (⟨e, he, hp⟩ | ⟨_, _, he, _⟩)
    · cases h.symm.trans he
      exact hp
    · cases h.symm.trans he
  rcases halloc with ⟨⟨s, h, hmem⟩, hge, hle⟩ | ⟨h, hgt, hw⟩ | ⟨⟨s, h⟩, hw⟩
  · rw [h, ok_bind] at hload
    have hcond : flat + elf.imageSize < 2 ^ 64 ∧ (flat + elf.imageSize ≤ L.freeRamEnd →
        elf.Contained L elfData flat elf.loads) ↔ elf.Contained L elfData flat elf.loads :=
      ⟨fun hc => hc.2 hle, fun hc => ⟨by omega, fun _ => hc⟩⟩
    rw [hcond]
    rcases fillImage_cases (k := { k with phys := s }) elfData hle hv with
      ⟨⟨e, h', he⟩ | ⟨k', h', hout⟩, hc⟩ | ⟨h', hc⟩
    · exact iff_of_true (.inl ⟨e, hload.trans h', he⟩) hc
    · refine iff_of_true (.inr ⟨flat, k', hload.trans h', hge, hle, fun a ha => ?_, fun i hi => ?_⟩) hc
      · rw [hout a ha]
        show s.mem a = _
        rw [hmem, memset_outside ha]
      · unfold Layout.freeRamEnd at *
        unfold userBase kernelBase
        omega
    · exact iff_of_false (hundef (hload.trans h')) hc
  · refine iff_of_true (.inl ⟨.panic "out of memory" [], hload.trans ?_, trivial⟩) ⟨hw, fun hle => by omega⟩
    rw [h]
    rfl
  · rw [h, ok_bind] at hload
    exact iff_of_false (hundef (hload.trans (if_pos (by omega)))) fun hc => by omega

/-! ## Files of the usual kind -/

/-- The bytes of the segments lie in the kernel's memory below free RAM, at the place of the file. -/
def Kernel.FileAt (L : Layout) (k : Kernel) (elf : Elf) (elfData : Nat) : Prop :=
  ∀ p ∈ elf.loads, ∀ j < p.pFilesz, kernelBase ≤ elfData + p.pOffset + j ∧ elfData + p.pOffset + j < L.freeRam ∧
    k.phys.mem (elfData + p.pOffset + j) = elf.data (p.pOffset + j)

namespace Elf

/-- In such a file every segment lies within the image. -/
theorem Spans.contained (h : elf.Spans) (hps : ∀ p ∈ ps, p ∈ elf.loads) : elf.Contained L elfData flat ps := by
  induction ps with
  | nil => trivial
  | cons p ps ih =>
      obtain ⟨h1, h2⟩ := h p (hps p List.mem_cons_self)
      exact .inr ⟨.inr (by omega), ih fun q hq => hps q (List.mem_cons_of_mem p hq)⟩

theorem copyBytes_eq {d : Nat → UInt8} (hge : L.freeRam ≤ flat) (hle : flat + elf.imageSize ≤ L.freeRamEnd)
    (hmin : elf.minVaddr ≤ p.pVaddr) (hn : p.pVaddr - elf.minVaddr + j + n ≤ elf.imageSize)
    (hsrc : ∀ i, j ≤ i → i < j + n → kernelBase ≤ elfData + p.pOffset + i ∧ elfData + p.pOffset + i < L.freeRam ∧
      m (elfData + p.pOffset + i) = d i) :
    elf.copyBytes L elfData flat p m j n =
      .ok (write m (flat + (p.pVaddr - elf.minVaddr) + j) n fun i => d (j + i)) := by
  induction n generalizing m j with
  | zero => rw [copyBytes, write_zero]
  | succ n ih =>
      have hend := L.freeRamEnd_lt
      have hram := L.freeRam_lt_end
      have hbase := L.kernelBase_lt_freeRam
      obtain ⟨h1, h2, h3⟩ := hsrc j (Nat.le_refl j) (by omega)
      have hs : (elfData + p.pOffset + j) % 2 ^ 64 = elfData + p.pOffset + j := Nat.mod_eq_of_lt (by omega)
      have hd : (flat + (p.pVaddr + (2 ^ 64 - elf.minVaddr)) + j) % 2 ^ 64 = flat + (p.pVaddr - elf.minVaddr) + j := by
        have := elf.minVaddr_lt
        omega
      have hmap : ∀ a, kernelBase ≤ a → a < L.freeRamEnd → L.Mapped a := fun a ha ha' => .inl ⟨ha, by
        unfold Layout.heapEnd
        omega⟩
      rw [copyBytes, hs, hd, if_neg (not_not.mpr (hmap _ h1 (by omega))), if_neg (not_not.mpr (hmap _ (by omega) (by omega))),
        if_pos ⟨by omega, by omega⟩, h3, ih (by omega) fun i hi hi' => ?_]
      · have hfirst := @write_update_first m (flat + (p.pVaddr - elf.minVaddr) + j) n fun i => d (j + i)
        rw [← hfirst]
        simp only [Nat.add_assoc, Nat.add_comm 1, Nat.add_zero]
      · obtain ⟨g1, g2, g3⟩ := hsrc i (by omega) (by omega)
        exact ⟨g1, g2, by rw [Function.update_of_ne (by omega), g3]⟩

theorem copyLoads_eq (hge : L.freeRam ≤ flat) (hle : flat + elf.imageSize ≤ L.freeRamEnd) (h : elf.Spans)
    (hps : ∀ p ∈ ps, p ∈ elf.loads) (hsrc : ∀ p ∈ ps, ∀ i < p.pFilesz, kernelBase ≤ elfData + p.pOffset + i ∧
      elfData + p.pOffset + i < L.freeRam ∧ m (elfData + p.pOffset + i) = elf.data (p.pOffset + i)) :
    elf.copyLoads L elfData flat m ps = .ok (ps.foldl
      (fun m p => write m (flat + (p.pVaddr - elf.minVaddr)) p.pFilesz fun i => elf.data (p.pOffset + i)) m) := by
  induction ps generalizing m with
  | nil => rfl
  | cons p ps ih =>
      obtain ⟨h1, h2⟩ := h p (hps p List.mem_cons_self)
      have hfirst := hsrc p List.mem_cons_self
      rw [copyLoads, copyBytes_eq (d := fun i => elf.data (p.pOffset + i)) hge hle h1 (by omega) fun i _ hi =>
        hfirst i (by omega), ok_bind, List.foldl_cons]
      simp only [Nat.add_zero, Nat.zero_add]
      refine ih (fun q hq => hps q (List.mem_cons_of_mem p hq)) fun q hq i hi => ?_
      obtain ⟨g1, g2, g3⟩ := hsrc q (List.mem_cons_of_mem p hq) i hi
      exact ⟨g1, g2, by rw [write_outside (by omega), g3]⟩

end Elf

/-- The loader reads the symbols last. -/
theorem loadImage_eq (h : elf.eMagic = elfMagic) : k.loadImage L elf =
    k.phys.allocPages L k.owner (imagePages elf) >>= fun r => Kernel.readSymbols
      { k with phys := { r.2 with mem := elf.copySegments (memset r.2.mem r.1 0 elf.imageSize) r.1 } } elf >>= fun k =>
        .ok (r.1, k) := by
  unfold loadImage readSymbols
  rw [if_neg (not_not.mpr h)]
  simp only [bind_assoc, ok_bind]
  rfl

/-- Then the loader does what `loadImage` says. -/
theorem loadFile_eq_loadImage (hs : AllocOk L k.phys F) (h : elf.Spans) (hfile : k.FileAt L elf elfData)
    (hw : k.phys.nextBlock (imagePages elf) + elf.imageSize < 2 ^ 64) :
    k.loadFile L elf elfData = k.loadImage L elf := by
  have hsize := imagePages_mul elf
  have hend := L.freeRamEnd_lt
  have halloc := hs.allocPages_cases (o := k.owner) (n := imagePages elf) (by have := elf.imageSize_lt; omega)
  rw [hsize] at halloc
  by_cases hmagic : elf.eMagic = elfMagic
  case neg => rw [loadImage, loadFile, if_pos hmagic, if_pos hmagic]
  rw [loadImage_eq hmagic, loadFile, if_neg (not_not.mpr hmagic)]
  have hn : k.phys.allocPages L k.owner ((elf.imageSize + 4095) / 4096) = k.phys.allocPages L k.owner (imagePages elf) := rfl
  rw [hn]
  generalize k.phys.nextBlock (imagePages elf) = flat at *
  rcases halloc with ⟨⟨s, hal, hmem⟩, hge, hle⟩ | ⟨hal, -⟩ | ⟨-, hwrap⟩
  · rw [hal, ok_bind, ok_bind]
    have hcopy : elf.copyLoads L elfData flat (memset s.mem flat 0 elf.imageSize) elf.loads =
        .ok (elf.copySegments (memset s.mem flat 0 elf.imageSize) flat) := by
      rw [h.copySegments_eq (by omega)]
      refine Elf.copyLoads_eq hge hle h (fun p hp => hp) fun p hp i hi => ?_
      obtain ⟨g1, g2, g3⟩ := hfile p hp i hi
      exact ⟨g1, g2, by rw [memset_outside (by omega), hmem, memset_outside (by omega), g3]⟩
    show Kernel.fillImage L { k with phys := s } elf elfData flat = _
    rw [fillImage, if_neg (by omega)]
    simp only [hcopy, ok_bind]
  · have herr : ∀ f : Nat × Phys → Except Halt (Nat × Kernel),
        (Except.error (.panic "out of memory" []) >>= f) = .error (.panic "out of memory" []) := fun _ => rfl
    rw [hal, herr, herr]
  · omega

/-- The program with two segments, loaded first of all. -/
theorem loadFile_safe_iff_twoSegments :
    (reset .kernelMap fun _ => 0).LoadsSafely .kernelMap twoSegments kernelBase := by
  refine (loadFile_safe_iff (.boot .kernelMap fun _ => 0) rfl (by decide)).mpr ⟨by decide, fun _ => ?_⟩
  exact .inr ⟨.inr (by decide), .inr ⟨.inr (by decide), trivial⟩⟩

/-- A program with a byte more in the file than its one page of memory holds. -/
def longFile : Elf where
  eMagic := elfMagic
  phdrs := [{ pType := ptLoad, pOffset := 0x1000, pVaddr := userBase, pFilesz := 0x1001, pMemsz := 0x1000 }]
  symtab := tinyElf.symtab
  data := fun _ => 1

/-- That byte goes to the page behind the image. -/
theorem loadFile_longFile : longFile.eMagic = elfMagic ∧ (∀ p ∈ longFile.loads, p.pVaddr < 2 ^ 64) ∧
    ¬(reset .kernelMap fun _ => 0).LoadsSafely .kernelMap longFile kernelBase := by
  have hv : ∀ p ∈ longFile.loads, p.pVaddr < 2 ^ 64 := by decide
  obtain ⟨s, hs⟩ : ∃ s, (reset .kernelMap fun _ => 0).phys.allocPages .kernelMap 0 1 = .ok (Layout.kernelMap.freeRam, s) := by
    rcases (AllocOk.boot .kernelMap fun _ => 0).allocPages_cases (o := 0) (n := 1) (by decide) with
      ⟨⟨s, h, _⟩, _⟩ | ⟨_, hgt, _⟩ | ⟨_, hge⟩
    · exact ⟨s, h⟩
    · exact absurd hgt (by decide)
    · exact absurd hge (by decide)
  have hload : (reset .kernelMap fun _ => 0).loadFile .kernelMap longFile kernelBase =
      Kernel.fillImage .kernelMap { reset .kernelMap fun _ => 0 with phys := s } longFile kernelBase
        Layout.kernelMap.freeRam := by
    have hn : (longFile.imageSize + 4095) / 4096 = 1 := by decide
    have ho : (reset .kernelMap fun _ => 0).owner = 0 := rfl
    rw [loadFile, if_neg (by decide), hn, ho, hs, ok_bind]
  have hsize : longFile.imageSize = 0x1000 ∧ longFile.minVaddr = userBase := by decide
  have hcont : ¬longFile.Contained .kernelMap kernelBase Layout.kernelMap.freeRam longFile.loads := by
    have hloads : longFile.loads = longFile.phdrs := rfl
    rw [hloads, longFile]
    rintro (⟨j, hj, -, hno⟩ | ⟨h0 | hle, -⟩)
    · rw [← longFile, hsize.2] at hno
      dsimp only at hj hno
      refine hno ⟨.inl ?_, .inl ?_⟩ <;> simp only [kernelBase, userBase, Layout.heapEnd, Layout.freeRamEnd, Layout.kernelMap] <;> omega
    · cases h0
    · rw [← longFile, hsize.1, hsize.2] at hle
      dsimp only at hle
      omega
  refine ⟨rfl, hv, ?_⟩
  rcases fillImage_cases (k := { reset .kernelMap fun _ => 0 with phys := s }) kernelBase
    (show Layout.kernelMap.freeRam + longFile.imageSize ≤ Layout.kernelMap.freeRamEnd by decide) hv with ⟨_, hc⟩ | ⟨h, _⟩
  · exact absurd hc hcont
  · rintro (⟨e, he, hp⟩ | ⟨_, _, he, _⟩)
    · cases (hload.trans h).symm.trans he
      exact hp
    · cases (hload.trans h).symm.trans he

end RiscvOs
