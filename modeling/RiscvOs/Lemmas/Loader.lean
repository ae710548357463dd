import RiscvOs.Lemmas.Program

/-!
# The loader

What `extract_flat_binary_from_elf` makes of a program whose segments and symbols lie anywhere below the
kernel, with room for it or not.
-/

namespace RiscvOs

open ByteMem Outcome Kernel

variable {L : Layout} {k k' : Kernel} {F F' : List Nat} {i : Fin procsMax} {m : Mem} {s s' t : Phys}
  {o flat n x va root pg top bottom heap : Nat} {elf : Elf} {p : Phdr} {f : Nat → UInt8} {S : Vpn → Prop}

/-! ## Segments -/

/-- `a` lies in the memory range of the segment. -/
def Phdr.Covers (p : Phdr) (a : Nat) : Prop := p.pVaddr ≤ a ∧ a < p.pVaddr + p.pMemsz

namespace Elf

/-- A program whose segments lie apart from each other, from `USER_BASE` on and below the kernel, and whose
bytes in the file go below its stack and its heap. -/
structure Placed (elf : Elf) (top bottom heap : Nat) : Prop where
  magic : elf.eMagic = elfMagic
  stackTop : elf.getSymbolAddress "__user_stack_top" = .ok top
  stackBottom : elf.getSymbolAddress "__user_stack_bottom" = .ok bottom
  heapStart : elf.getSymbolAddress "__user_heap_start" = .ok heap
  heapEnd : ∃ a, elf.getSymbolAddress "__user_heap_end" = .ok a
  aligned : top % 4096 = 0 ∧ bottom % 4096 = 0 ∧ heap % 4096 = 0
  apart : elf.loads.Pairwise fun p q => ∀ a, ¬(p.Covers a ∧ q.Covers a)
  fits : ∀ p ∈ elf.loads, p.pVaddr + p.pMemsz ≤ kernelBase ∧ p.pFilesz ≤ p.pMemsz
  lowest : ∃ p ∈ elf.loads, p.pVaddr / 4096 = userBase / 4096 ∧ ∀ q ∈ elf.loads, p.pVaddr ≤ q.pVaddr
  file : ∀ p ∈ elf.loads, ∀ n < p.pFilesz, p.pVaddr + n < bottom ∧ p.pVaddr + n < heap

/-- Byte `n` of the memory range of a segment, as the file has it. -/
def byte (elf : Elf) (p : Phdr) (n : Nat) : UInt8 := if n < p.pFilesz then elf.data (p.pOffset + n) else 0

variable (h : elf.Placed top bottom heap)

include h

/-- The flat image begins at `USER_BASE` and spans the segments. -/
theorem Placed.span : elf.minVaddr = userBase ∧ userBase + elf.imageSize ≤ kernelBase ∧
    elf.imageSize % 4096 = 0 ∧
    ∀ p ∈ elf.loads, userBase ≤ p.pVaddr ∧ p.pVaddr + p.pMemsz ≤ userBase + elf.imageSize := by
  obtain ⟨p₀, hp₀, hpage, hlow⟩ := h.lowest
  have hlt : ∀ p ∈ elf.loads, p.pVaddr + p.pMemsz ≤ kernelBase := fun p hp => (h.fits p hp).1
  have hmin : elf.loads.foldl (fun a p => min a p.pVaddr) (2 ^ 64 - 1) = p₀.pVaddr := by
    refine Nat.le_antisymm (foldl_min_le hp₀) (le_foldl_min ?_ hlow)
    have := hlt p₀ hp₀
    unfold kernelBase at this
    omega
  have hmod : ∀ p ∈ elf.loads, (p.pVaddr + p.pMemsz) % 2 ^ 64 = p.pVaddr + p.pMemsz := fun p hp => by
    have := hlt p hp
    unfold kernelBase at this
    omega
  have hmax : ∀ p ∈ elf.loads,
      p.pVaddr + p.pMemsz ≤ elf.loads.foldl (fun a p => max a ((p.pVaddr + p.pMemsz) % 2 ^ 64)) 0 := by
    intro p hp
    have := le_foldl_max (f := fun p : Phdr => (p.pVaddr + p.pMemsz) % 2 ^ 64) (a := 0) hp
    rwa [hmod p hp] at this
  have hhigh : elf.loads.foldl (fun a p => max a ((p.pVaddr + p.pMemsz) % 2 ^ 64)) 0 ≤ kernelBase :=
    foldl_max_le (by decide) fun p hp => by
      rw [hmod p hp]
      exact hlt p hp
  have hbase : elf.minVaddr = userBase := by
    unfold minVaddr userBase at *
    rw [hmin]
    omega
  have h0 := hmax p₀ hp₀
  unfold imageSize maxVaddr pgRoundUp
  rw [hbase]
  generalize elf.loads.foldl (fun a p => max a ((p.pVaddr + p.pMemsz) % 2 ^ 64)) 0 = hi at *
  unfold userBase kernelBase at *
  refine ⟨rfl, by omega, by omega, fun p hp => ?_⟩
  have h1 := hlow p hp
  have h2 := hmax p hp
  omega

theorem Placed.spans : elf.Spans := fun p hp => by
  obtain ⟨h1, _, _, h4⟩ := h.span
  have h5 := h4 p hp
  have h6 := (h.fits p hp).2
  omega

/-- The flat image has the bytes of the segments in their places. -/
theorem Placed.image_byte (hflat : flat + elf.imageSize < 2 ^ 64) (hp : p ∈ elf.loads) (hn : n < p.pMemsz) :
    elf.copySegments (memset m flat 0 elf.imageSize) flat (flat + (p.pVaddr + n - userBase)) = elf.byte p n := by
  obtain ⟨h1, _, _, h4⟩ := h.span
  obtain ⟨h5, h6⟩ := h4 p hp
  rw [h.spans.copySegments_eq hflat, h1]
  -- a byte of the image lies in at most one segment
  have hcover : ∀ q ∈ elf.loads, flat + (q.pVaddr - userBase) ≤ flat + (p.pVaddr + n - userBase) ∧
      flat + (p.pVaddr + n - userBase) < flat + (q.pVaddr - userBase) + q.pFilesz → q.Covers (p.pVaddr + n) := by
    intro q hq hx
    have := (h4 q hq).1
    have := (h.fits q hq).2
    exact ⟨by omega, by omega⟩
  unfold byte
  split
  · next hfile =>
    rw [foldl_write_inside ?_ hp (by omega) (by omega)]
    · rw [show flat + (p.pVaddr + n - userBase) - (flat + (p.pVaddr - userBase)) = n by omega]
    · refine h.apart.imp_of_mem fun hq hr hd hx => ?_
      exact hd _ ⟨hcover _ hq hx.1, hcover _ hr hx.2⟩
  · next hfile =>
    rw [foldl_write_outside fun q hq hx => ?_]
    · exact memset_inside (by omega) (by omega)
    · by_cases hqp : q = p
      · subst hqp
        omega
      · have hsym : Std.Symm fun p q : Phdr => ∀ a, ¬(p.Covers a ∧ q.Covers a) := ⟨fun _ _ hd a ha => hd a ha.symm⟩
        exact h.apart.forall hq hp hqp _ ⟨hcover q hq hx, by unfold Phdr.Covers; omega⟩

/-- Bytes from the file are no bytes of the stack or the heap, if the symbols are addresses of 39 bits. -/
theorem Placed.file_not_data (htop : top < 2 ^ 39) (hheap : heap < 2 ^ 39) (hp : p ∈ elf.loads)
    (hn : n < p.pFilesz) : ¬DataPage top bottom heap (vpn (p.pVaddr + n)) := by
  obtain ⟨h1, h2⟩ := h.file p hp n hn
  obtain ⟨h3, h4, h5⟩ := h.aligned
  have h6 := (h.fits p hp)
  unfold kernelBase at h6
  rintro (⟨i, hi, he⟩ | he) <;> rw [vpn_eq_iff] at he <;> omega

end Elf

/-! ## The space of a program -/

/-- The byte that the user reads at `va` in the address space with the given root. -/
def Phys.userByte (m : Mem) (root va : Nat) : Option UInt8 :=
  if (Phys.translate m root va pteU).isSome then (Phys.translate m root va pteR).map m else none

theorem user_of_userFrame {e : Nat} (h : userFrame e = some pg) : pteHas e pteU := by
  simp only [userFrame, Option.ite_none_right_eq_some, Bool.and_eq_true] at h
  exact h.1.2

/-- The kernel reaches a byte of the user in its frame. -/
theorem translate_of_frame {mask : Nat} (h : userFrame (leafAt m root (vpn va)) = some pg) (hva : va < 2 ^ 38)
    (hmask : pteHas (leafAt m root (vpn va)) mask) : Phys.translate m root va mask = some (pg + va % 4096) := by
  unfold Phys.translate
  rw [leafPte_eq, if_pos, pte2pa_of_userFrame h]
  simp only [valid_of_userFrame h, hmask, Bool.and_true, Bool.or_eq_true, decide_eq_true_eq]
  exact .inl hva

theorem userByte_of_leaf (h : UserLeaf (leafAt m root (vpn va)) pg) (hva : va < 2 ^ 38) :
    Phys.userByte m root va = some (m (pg + va % 4096)) := by
  simp only [Phys.userByte, translate_of_frame h.frame hva (user_of_userFrame h.frame),
    translate_of_frame h.frame hva h.readable, Option.isSome_some, if_true, Option.map_some]

section BuildSpace

variable {imageSize : Nat}

/-- The user finds the flat image from `USER_BASE` on, but for the pages of the stack and the heap, which
are zero. -/
theorem buildSpace_byte (hs : AllocOk L s F) (ht : TrackOk L s F) (hflat : flat % 4096 = 0)
    (hsize : imageSize % 4096 = 0) (himg : userBase + imageSize ≤ kernelBase)
    (htaken : ∀ pg, InBlock flat (imageSize / 4096) pg → ¬Avail L s F pg) (hx : x < imageSize)
    (hok : s.buildSpace L o flat imageSize top bottom heap = .ok (root, s')) :
    (¬DataPage top bottom heap (vpn (userBase + x)) →
      Phys.userByte s'.mem root (userBase + x) = some (s.mem (flat + x))) ∧
    (DataPage top bottom heap (vpn (userBase + x)) → Phys.userByte s'.mem root (userBase + x) = some 0) := by
  obtain ⟨F', hn, _, _, hcode, hbyte, hdata, hzero⟩ := buildSpace_spec hs ht hok
  have hva : userBase + x < 2 ^ 38 := by
    unfold kernelBase userBase at *
    omega
  have hmod : (userBase + x) % 4096 = x % 4096 := by
    unfold userBase
    omega
  have hpages : (imageSize + 4095) / 4096 = imageSize / 4096 := by omega
  refine ⟨fun hd => ?_, fun hd => ?_⟩
  · have hpage : vpn (userBase + x) = vpn (userBase + 4096 * (x / 4096)) := by
      rw [vpn_eq_iff]
      unfold userBase
      omega
    have hcp : CodePage imageSize top bottom heap (vpn (userBase + x)) :=
      ⟨⟨x / 4096, by omega, hpage⟩, hd⟩
    obtain ⟨pg, hu⟩ := (hcode _ hcp).user
    have hsource : Phys.imageSource flat imageSize (userBase + 4096 * (x / 4096)) =
        (flat + x / 4096 * 4096, 4096) := by
      unfold Phys.imageSource
      rw [show (userBase + 4096 * (x / 4096) - userBase) / 4096 = x / 4096 by omega]
      refine Prod.ext rfl ?_
      show (if x / 4096 = (imageSize + 4095) / 4096 - 1 then imageSize - x / 4096 * 4096 else 4096) = 4096
      rw [hpages]
      split
      · next hlast =>
        rw [hlast]
        omega
      · rfl
    have hlow : x % 4096 < 4096 := Nat.mod_lt x (by decide)
    rw [userByte_of_leaf hu hva, hmod, hbyte _ pg _ hcp hu.frame hlow himg hd (x / 4096) (by omega) hpage _ _
      hsource (htaken _ (inBlock_pageOf hflat (by omega) (by omega))), if_pos hlow]
    rw [show flat + x / 4096 * 4096 + x % 4096 = flat + x by omega]
  · obtain ⟨pg, hu⟩ := (hdata _ hd).user
    rw [userByte_of_leaf hu hva, hmod, hzero _ pg _ hd hu.frame (Nat.mod_lt x (by decide))]

end BuildSpace

/-- A process that the loader has made: its space was built over memory with the flat image. -/
theorem extract_built {createProcess : Bool} (hs : AllocOk L k.phys F) (ht : TrackOk L k.phys F)
    (he : elf.Placed top bottom heap) (hpos : 0 < elf.imageSize)
    (h : k.extractFlatBinaryFromElf L elf createProcess = .ok (i, k')) :
    ∃ flat s F₁ o, AllocOk L s F₁ ∧ TrackOk L s F₁ ∧ flat % 4096 = 0 ∧
      (∀ pg, InBlock flat (elf.imageSize / 4096) pg → ¬Avail L s F₁ pg) ∧
      (∀ p ∈ elf.loads, ∀ n < p.pMemsz, s.mem (flat + (p.pVaddr + n - userBase)) = elf.byte p n) ∧
      s.buildSpace L o flat elf.imageSize top bottom heap = .ok ((k'.procs i).pageTable, k'.phys) := by
  obtain ⟨_, hsize, hal, hseg⟩ := he.span
  have hpages : imagePages elf = elf.imageSize / 4096 := by
    unfold imagePages
    omega
  have hn : 0 < imagePages elf := by omega
  simp only [extractFlatBinaryFromElf, bind_eq_ok, Prod.exists] at h
  obtain ⟨flat, k₁, h1, h⟩ := h
  obtain ⟨_, s, F₁, top', bottom', heap', heapEnd, hb, h2, h3, h4, _, hk₁⟩ := loadImage_block hs ht hn
    (by unfold kernelBase at hsize; omega) h1
  obtain rfl : top = top' := Except.ok.inj (he.stackTop.symm.trans h2)
  obtain rfl : bottom = bottom' := Except.ok.inj (he.stackBottom.symm.trans h3)
  obtain rfl : heap = heap' := Except.ok.inj (he.heapStart.symm.trans h4)
  obtain ⟨hflat, hend, hg⟩ := image_grows hs hb hn he.spans
  have hphys : k₁.phys = { s with mem := elf.copySegments (memset s.mem flat 0 elf.imageSize) flat } := by
    rw [hk₁]
  rw [← hphys] at hg
  have htaken : ∀ pg, InBlock flat (elf.imageSize / 4096) pg → ¬Avail L k₁.phys F₁ pg := by
    intro pg hpg hav
    rw [hphys] at hav
    exact ((hb.avail pg).mp hav).2 (hpages ▸ hpg)
  have hbytes : ∀ p ∈ elf.loads, ∀ n < p.pMemsz,
      k₁.phys.mem (flat + (p.pVaddr + n - userBase)) = elf.byte p n := by
    intro p hp n hlt
    rw [hphys]
    exact he.image_byte (by omega) hp hlt
  have htop : k₁.gUserStackTop = top := by rw [hk₁]
  have hbot : k₁.gUserStackBottom = bottom := by rw [hk₁]
  have hheap : k₁.gUserHeapStart = heap := by rw [hk₁]
  cases createProcess with
  | false =>
      simp only [execProcess, htop, hbot, hheap, bind_eq_ok, Prod.exists, Bool.false_eq_true, if_false,
        Except.ok.injEq, Prod.mk.injEq] at h
      obtain ⟨pt, s', h5, rfl, rfl⟩ := h
      refine ⟨flat, k₁.phys, F₁, _, hg.ok, hg.track, hflat, htaken, hbytes, h5.trans ?_⟩
      simp only [setProc, Function.update_self]
  | true =>
      simp only [if_true, createInitProcess] at h
      cases hslot : k₁.freeSlot with
      | none =>
          rw [hslot] at h
          cases h
      | some j =>
          rw [hslot] at h
          simp only [bind_eq_ok, Prod.exists, Except.ok.injEq, Prod.mk.injEq] at h
          obtain ⟨pt, s', h5, rfl, rfl⟩ := h
          have hf := initFrame_grows (o := 0) (i := j) hg.ok hg.track
          refine ⟨flat, (k₁.initFrame L j).phys, F₁, k₁.owner, hf.ok, hf.track, hflat,
            fun pg hpg hav => htaken pg hpg (hf.avail pg hav), fun p hp n hlt => ?_, ?_⟩
          · rw [← hbytes p hp n hlt]
            have hin : InBlock flat (elf.imageSize / 4096) (pageOf (flat + (p.pVaddr + n - userBase))) := by
              have := hseg p hp
              exact inBlock_pageOf hflat (by omega) (by omega)
            have hge := (hs.isPage (hb.was _ (hpages ▸ hin))).ge
            exact hf.mem _ (htaken _ hin) fun hlow => absurd hge (by omega)
          · rw [← htop, ← hbot, ← hheap]
            refine h5.trans ?_
            simp only [setProc, Function.update_self]

/-! ## Room -/

/-- A loop over fresh pages, each of which may need two more tables. -/
theorem Extend.mapLoop_room (src : Nat → Nat × Nat) (va : Nat) {s₀ : Phys} {F₀ : List Nat} {flags k : Nat}
    (h : Extend L o s₀ F₀ root s F S fun _ _ _ => True)
    (hf : flags < 1024) (hu : pteHas flags pteU) (hrw : pteHas flags pteR ∧ pteHas flags pteW)
    (hva : va % 4096 = 0) (hn : ∀ va, (src va).2 ≤ 4096) (hr : 3 * k ≤ s.room L) :
    ∃ s', s.mapLoop L o root flags (fun _ va => some (src va)) va k = .ok s' ∧
      s.room L ≤ s'.room L + 3 * k := by
  induction k generalizing s F va S with
  | zero => exact ⟨s, rfl, Nat.le_add_right _ _⟩
  | succ k ih =>
      obtain ⟨pa, t, h1, hr1⟩ := h.grows.ok.allocPages_room (o := o) (by omega)
      obtain ⟨F₁, hb⟩ := allocPages_one h.grows.ok h.grows.track h1
      have hpa := h.grows.ok.isPage hb.was_one
      have hn' := hn va
      have hcopy : ∀ y, pageOf y ≠ pa → memcpy t.mem pa (src va).1 (src va).2 y = t.mem y := fun y hy => by
        rw [ne_eq, pageOf_eq_iff hpa.aligned] at hy
        exact memcpy_outside (by omega)
      have hw : Grows L o t F₁ { t with mem := memcpy t.mem pa (src va).1 (src va).2 } F₁ (· = pa) :=
        .write hb.grows.ok hb.grows.track hcopy fun pg hpg => hpg ▸ hb.not_avail
      have htabs : TablesOk L { t with mem := memcpy t.mem pa (src va).1 (src va).2 } F₁ root :=
        h.space.tables.congr (fun y hy => by
          have hna := (h.space.tables.page _ hy).2
          show memcpy t.mem pa (src va).1 (src va).2 y = _
          rw [hcopy y fun hp => hna (hp ▸ hb.was_one), hb.grows.mem y hna id]) fun pg hpg hav =>
            (h.space.tables.page pg hpg).2 (hb.grows.avail pg (hw.avail pg hav))
      have hroom : Phys.room L { t with mem := memcpy t.mem pa (src va).1 (src va).2 } = t.room L := rfl
      obtain ⟨s₁, h2, hr2⟩ : ∃ s₁, Phys.mapPage L _ o root va pa flags = .ok s₁ ∧ _ :=
        mapPage_room hw.ok hw.track htabs hva hpa.aligned (by omega)
      have hok : s.mapCopy L o root va flags (src va).1 (src va).2 = .ok s₁ := by
        rw [Phys.mapCopy, h1, ok_bind]
        exact h2
      obtain ⟨F₂, hx, _⟩ := h.mapCopy hf hu hrw hn' (fun _ _ _ _ _ => trivial) hok
      obtain ⟨s', h3, hr3⟩ := ih (va + 4096) hx (by omega) (by omega)
      refine ⟨s', ?_, by omega⟩
      simp only [Phys.mapLoop, hok, ok_bind, h3]

/-- `alloc_pages` where there is room: for several pages, behind the bump pointer. -/
theorem allocPages_total (hs : AllocOk L s F) (hr : n ≤ s.room L) (hn : 0 < n)
    (hle : n ≠ 1 → s.nextPaddr + n * 4096 ≤ L.freeRamEnd) :
    ∃ pa s', s.allocPages L o n = .ok (pa, s') ∧ s.room L ≤ s'.room L + n := by
  by_cases h1 : n = 1
  · subst h1
    obtain ⟨pa, s', h, hr⟩ := hs.allocPages_room (o := o) hr
    exact ⟨pa, s', h, by omega⟩
  · have hle := hle h1
    refine ⟨_, _, Phys.allocPages_of_bump (fun h => absurd h h1) hle, ?_⟩
    simp only [Phys.room, Phys.trackAlloc_nextPaddr, Phys.trackAlloc_gFreePages]
    omega

/-- The pages of a stack. -/
def stackPages (top bottom : Nat) : Nat := if bottom ≤ top then (top - bottom) / 4096 + 1 else 0

/-- With three pages for each page of the program and its stack, the space of a program can be built. -/
theorem buildSpace_room (flat imageSize top : Nat) (hs : AllocOk L s F) (ht : TrackOk L s F) (hbot : bottom % 4096 = 0)
    (hheap : heap % 4096 = 0)
    (hr : 518 + 3 * ((imageSize + 4095) / 4096) + 3 * stackPages top bottom ≤ s.room L) :
    ∃ root s', s.buildSpace L o flat imageSize top bottom heap = .ok (root, s') := by
  obtain ⟨root, s₁, s₂, h1, h2, hr2⟩ := identity_slack (o := o) hs ht (by omega)
  obtain ⟨F₁, hb⟩ := allocPages_one hs ht h1
  obtain ⟨F₂, hn, _⟩ := NewSpace.identity hb hs h2
  have hslack := Phys.slack_le_room L s₂ root
  have he := Extend.refl (o := o) (C := fun _ _ _ => True) hn.grows.ok hn.grows.track hn.space
  have hn3 : ∀ va, (Phys.imageSource flat imageSize va).2 ≤ 4096 := by
    intro va
    unfold Phys.imageSource
    show (if (va - userBase) / 4096 = (imageSize + 4095) / 4096 - 1 then _ else _) ≤ 4096
    split
    · next hlast =>
      rw [hlast]
      omega
    · exact Nat.le_refl _
  obtain ⟨s₃, h3, hr3⟩ := he.mapLoop_room (Phys.imageSource flat imageSize) userBase
    (k := (imageSize + 4095) / 4096) (by decide : pteV ||| pteU ||| pteRWX < 1024) (by decide) (by decide)
    (by decide) hn3 (by omega)
  obtain ⟨F₃, he3, _⟩ := he.mapLoop (by decide) (by decide) (by decide)
    (f := fun va => some (Phys.imageSource flat imageSize va)) (fun _ _ _ _ _ => rfl)
    (fun _ _ _ i _ a n ha => ⟨by
      have hle := hn3 (userBase + 4096 * i)
      rwa [Option.some.inj ha] at hle, fun _ _ => trivial⟩) h3
  obtain ⟨s₄, h4, hr4⟩ := he3.mapLoop_room (fun _ => (0, 0)) bottom (k := stackPages top bottom)
    (by decide : pteV ||| pteR ||| pteW ||| pteU < 1024) (by decide) (by decide) hbot (fun _ => Nat.zero_le _)
    (by omega)
  obtain ⟨F₄, he4, _⟩ := he3.mapLoop (by decide) (by decide) (by decide) (f := fun _ => some (0, 0))
    (fun _ _ _ _ _ => rfl)
    (fun _ _ _ i _ a n ha => ⟨by
      cases ha
      decide, fun _ _ => trivial⟩) h4
  obtain ⟨heapPage, s₅, h5, hr5⟩ := he4.grows.ok.allocPages_room (o := o) (by omega)
  obtain ⟨F₅, hb5⟩ := allocPages_one he4.grows.ok he4.grows.track h5
  have htabs : TablesOk L s₅ F₅ root := he4.space.tables.congr (fun y hy => by
    have hna := (he4.space.tables.page _ hy).2
    exact hb5.grows.mem y hna id) fun pg hpg hav => (he4.space.tables.page pg hpg).2 (hb5.grows.avail pg hav)
  obtain ⟨s₆, h6, _⟩ : ∃ s₆, s₅.mapPage L o root heap heapPage (pteV ||| pteU ||| pteR ||| pteW) = .ok s₆ ∧ _ :=
    mapPage_room hb5.grows.ok hb5.grows.track htabs hheap (he4.grows.ok.isPage hb5.was_one).aligned (by omega)
  refine ⟨root, { s₆ with mem := memset s₆.mem heapPage 0 4096 }, ?_⟩
  simp only [Phys.buildSpace, bind_eq_ok, Prod.exists]
  exact ⟨_, _, h1, _, h2, _, h3, _, h4, _, _, h5, _, h6, rfl⟩

/-- There is room for a program: for its flat image and its space, and where a process is to be created,
for that too. -/
structure LoadRoom (L : Layout) (k : Kernel) (elf : Elf) (top bottom : Nat) (createProcess : Bool) : Prop where
  size : 0 < elf.imageSize
  block : imagePages elf ≠ 1 → k.phys.nextPaddr + imagePages elf * 4096 ≤ L.freeRamEnd
  pages : 518 + 4 * imagePages elf + 3 * stackPages top bottom ≤ k.phys.room L
  slot : createProcess = true → k.freeSlot ≠ none

theorem extract_total (createProcess : Bool) (hs : AllocOk L k.phys F) (ht : TrackOk L k.phys F)
    (he : elf.Placed top bottom heap) (hr : LoadRoom L k elf top bottom createProcess) :
    ∃ i k', k.extractFlatBinaryFromElf L elf createProcess = .ok (i, k') := by
  obtain ⟨a, ha⟩ := he.heapEnd
  obtain ⟨_, hsize, _⟩ := he.span
  have hpos := hr.size
  have hn : 0 < imagePages elf := by
    unfold imagePages
    omega
  obtain ⟨flat, s, h1, hr1⟩ := allocPages_total (o := k.owner) hs (by have := hr.pages; omega) hn hr.block
  obtain ⟨k₁, h2, hk₁⟩ : ∃ k₁, k.loadImage L elf = .ok (flat, k₁) ∧ k₁ = { k with
      phys := { s with mem := elf.copySegments (memset s.mem flat 0 elf.imageSize) flat }
      gUserStackTop := top, gUserStackBottom := bottom, gUserHeapStart := heap, gUserHeapEnd := a } := by
    refine ⟨_, ?_, rfl⟩
    unfold loadImage
    rw [if_neg (not_not.mpr he.magic), he.stackTop, he.stackBottom, he.heapStart, ha]
    simp only [bind_eq_ok, ok_bind, Prod.exists]
    exact ⟨_, _, h1, rfl⟩
  obtain ⟨F₁, hb⟩ := allocPages_block hs ht hn (by
    have := hs.next_lt
    unfold imagePages userBase kernelBase at *
    omega) h1
  obtain ⟨_, _, hg⟩ := image_grows hs hb hn he.spans
  have hphys : k₁.phys = { s with mem := elf.copySegments (memset s.mem flat 0 elf.imageSize) flat } := by
    rw [hk₁]
  rw [← hphys] at hg
  have htop : k₁.gUserStackTop = top := by rw [hk₁]
  have hbot : k₁.gUserStackBottom = bottom := by rw [hk₁]
  have hheap : k₁.gUserHeapStart = heap := by rw [hk₁]
  have hroom : k₁.phys.room L = s.room L := by
    rw [hphys]
    rfl
  have hpages := hr.pages
  have himg : (elf.imageSize + 4095) / 4096 = imagePages elf := rfl
  simp only [extractFlatBinaryFromElf, h2, ok_bind]
  cases createProcess with
  | false =>
      obtain ⟨pt, s', h3⟩ := buildSpace_room (o := k₁.owner) flat elf.imageSize top hg.ok hg.track he.aligned.2.1 he.aligned.2.2 (by omega)
      simp only [execProcess, htop, hbot, hheap, h3, ok_bind, Bool.false_eq_true, if_false]
      exact ⟨_, _, rfl⟩
  | true =>
      have hslot : k₁.freeSlot = k.freeSlot := by
        unfold freeSlot
        rw [hk₁]
      obtain ⟨j, hj⟩ := Option.ne_none_iff_exists'.mp (hr.slot rfl)
      have hf := initFrame_grows (o := 0) (i := j) hg.ok hg.track
      have hroom' : (k₁.initFrame L j).phys.room L = k₁.phys.room L := rfl
      obtain ⟨pt, s', h3⟩ := buildSpace_room (o := k₁.owner) flat elf.imageSize top hf.ok hf.track he.aligned.2.1 he.aligned.2.2 (by omega)
      simp only [createInitProcess, hslot, hj, if_true]
      rw [← htop, ← hbot, ← hheap] at h3
      exact ⟨_, _, bind_eq_ok.mpr ⟨(pt, s'), h3, rfl⟩⟩

end RiscvOs
