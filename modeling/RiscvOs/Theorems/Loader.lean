import RiscvOs.Theorems.Supervisor

/-!
# Programs in memory

The user finds the segments of its program where the file has them, also where the stack and the heap are
mapped over the program. The symbols must be addresses of 39 bits: `map_page` does not look at the others.
Both loaders map one page more than they say: the one that starts at the top of the stack.
-/

namespace RiscvOs

open ByteMem Kernel Outcome

variable {L : Layout} {k : Kernel} {F : List Nat} {elf : Elf} {top bottom heap : Nat}

/-- With room, the loader makes a process; and in its space every byte of every segment is the one of the
file, or zero behind them. -/
theorem segments_loaded {createProcess : Bool} (hs : AllocOk L k.phys F) (ht : TrackOk L k.phys F)
    (he : elf.Placed top bottom heap) (htop : top < 2 ^ 39) (hheap : heap < 2 ^ 39) :
    (LoadRoom L k elf top bottom createProcess →
      ∃ i k', k.extractFlatBinaryFromElf L elf createProcess = .ok (i, k')) ∧
    ∀ i k', k.extractFlatBinaryFromElf L elf createProcess = .ok (i, k') → ∀ p ∈ elf.loads, ∀ n < p.pMemsz,
      Phys.userByte k'.phys.mem (k'.procs i).pageTable (p.pVaddr + n) = some (elf.byte p n) := by
  refine ⟨extract_total createProcess hs ht he, fun i k' h p hp n hn => ?_⟩
  obtain ⟨_, hsize, hal, hseg⟩ := he.span
  obtain ⟨h1, h2⟩ := hseg p hp
  obtain ⟨flat, s, F₁, o, hs₁, ht₁, hflat, htaken, hbytes, hb⟩ := extract_built hs ht he (by omega) h
  obtain ⟨hcode, hdata⟩ := buildSpace_byte (x := p.pVaddr + n - userBase) hs₁ ht₁ hflat hal hsize htaken
    (by omega) hb
  rw [show userBase + (p.pVaddr + n - userBase) = p.pVaddr + n by omega] at hcode hdata
  by_cases hd : DataPage top bottom heap (vpn (p.pVaddr + n))
  · -- a page of the stack or the heap is over this one: the segment has no byte of the file here
    have hfile : ¬n < p.pFilesz := fun hlt => he.file_not_data htop hheap hp hlt hd
    rw [hdata hd, Elf.byte, if_neg hfile]
  · rw [hcode hd, hbytes p hp n hn]

/-- A program with two segments in its first page, the second of which reaches behind the stack. -/
def twoSegments : Elf where
  eMagic := elfMagic
  phdrs := [{ pType := ptLoad, pOffset := 0x1000, pVaddr := userBase, pFilesz := 4, pMemsz := 8 },
    { pType := ptLoad, pOffset := 0x2000, pVaddr := 0x1000100, pFilesz := 4, pMemsz := 0x30000 }]
  symtab := tinyElf.symtab
  data := fun a => UInt8.ofNat (a / 0x1000)

theorem placed_twoSegments : twoSegments.Placed 0x1020000 0x1010000 0x3000000 where
  magic := rfl
  stackTop := rfl
  stackBottom := rfl
  heapStart := rfl
  heapEnd := ⟨_, rfl⟩
  aligned := by decide
  apart := by
    simp only [twoSegments, Elf.loads, ptLoad, List.filter, beq_self_eq_true, List.pairwise_cons,
      List.mem_singleton, forall_eq, Phdr.Covers, userBase]
    exact ⟨fun a => by omega, by simp⟩
  fits := by decide
  lowest := ⟨_, List.mem_cons_self, by decide, by decide⟩
  file := by decide

/-- It starts as the first process of the system. -/
theorem segments_loaded_twoSegments :
    ∃ i k', (reset .kernelMap fun _ => 0).extractFlatBinaryFromElf .kernelMap twoSegments true = .ok (i, k') ∧
      Phys.userByte k'.phys.mem (k'.procs i).pageTable 0x1000101 = some 2 ∧
      Phys.userByte k'.phys.mem (k'.procs i).pageTable 0x1010000 = some 0 := by
  obtain ⟨htotal, hbytes⟩ : (LoadRoom .kernelMap (reset .kernelMap fun _ => 0) twoSegments _ _ true → _) ∧ _ :=
    segments_loaded (.boot .kernelMap fun _ => 0) (.boot .kernelMap fun _ => 0) placed_twoSegments (by decide)
      (by decide)
  obtain ⟨i, k', h⟩ := htotal ⟨by decide, by decide, by decide, fun _ => by decide⟩
  have hp : ({ pType := ptLoad, pOffset := 0x2000, pVaddr := 0x1000100, pFilesz := 4, pMemsz := 0x30000 } : Phdr) ∈
      twoSegments.loads := by decide
  exact ⟨i, k', h, hbytes i k' h _ hp 1 (by decide), hbytes i k' h _ hp 0xff00 (by decide)⟩

/-- A program whose stack is one page, at an address of 40 bits. -/
def highStack : Elf where
  eMagic := elfMagic
  phdrs := [{ pType := ptLoad, pOffset := 0, pVaddr := userBase, pFilesz := 1, pMemsz := 1 }]
  symtab := some [("__user_stack_top", 0x8001000000), ("__user_stack_bottom", 0x8001000000),
    ("__user_heap_start", 0x3000000), ("__user_heap_end", 0x3020000)]
  data := fun _ => 1

theorem placed_highStack : highStack.Placed 0x8001000000 0x8001000000 0x3000000 where
  magic := rfl
  stackTop := rfl
  stackBottom := rfl
  heapStart := rfl
  heapEnd := ⟨_, rfl⟩
  aligned := by decide
  apart := by simp [highStack, Elf.loads, ptLoad]
  fits := by decide
  lowest := ⟨_, List.mem_cons_self, by decide, by decide⟩
  file := by decide

/-- Its stack takes the place of its code: the first byte is zero and not the one of the file. -/
theorem segments_loaded_highStack : highStack.Placed 0x8001000000 0x8001000000 0x3000000 ∧
    ∃ k i k', (reset .kernelMap fun _ => 0).pagingInit .kernelMap = .ok k ∧
      k.extractFlatBinaryFromElf .kernelMap highStack true = .ok (i, k') ∧
      ∃ p ∈ highStack.loads, 0 < p.pFilesz ∧ p.pVaddr = userBase ∧ highStack.data p.pOffset = 1 ∧
        Phys.userByte k'.phys.mem (k'.procs i).pageTable userBase = some 0 := by
  have hroom : (reset .kernelMap fun _ => 0).phys.room .kernelMap = 16384 := by decide
  obtain ⟨k, hk, hr⟩ := pagingInit_total (k := reset .kernelMap fun _ => 0) (.boot .kernelMap fun _ => 0)
    (.boot .kernelMap fun _ => 0) (by omega)
  obtain ⟨F, hg, hst⟩ := pagingInit_spec (k := reset .kernelMap fun _ => 0) (.boot .kernelMap fun _ => 0)
    (.boot .kernelMap fun _ => 0) hk
  have hpages : imagePages highStack = 1 := by decide
  have hstack : stackPages 0x8001000000 0x8001000000 = 1 := by decide
  have hdead : ∀ i, ¬k.Live i := fun i hl => hl (by rw [hst]; rfl)
  obtain ⟨i, k', h⟩ := extract_total true hg.ok hg.track placed_highStack
    ⟨by decide, fun hne => absurd hpages hne, by omega, fun _ => by rw [freeSlot_reset hdead]; simp⟩
  obtain ⟨flat, s, F₁, o, hs₁, ht₁, hflat, htaken, _, hb⟩ := extract_built hg.ok hg.track placed_highStack
    (by decide) h
  -- the page numbers of the stack and the code are the same
  have hd : DataPage 0x8001000000 0x8001000000 0x3000000 (vpn (userBase + 0)) := .inl ⟨0, by omega, by
    rw [vpn_eq_iff]
    decide⟩
  exact ⟨placed_highStack, k, i, k', hk, h, _, List.mem_cons_self, by decide, rfl, rfl,
    (buildSpace_byte hs₁ ht₁ hflat (by decide) (by decide) htaken (by decide) hb).2 hd⟩

/-! ## The pages of the user -/

/-- The pages that a new program is said to get: the stack ends below its top. -/
def StatedPage (imageSize top bottom heapStart : Nat) (v : Vpn) : Prop :=
  (∃ i < (imageSize + 4095) / 4096, v = vpn (userBase + 4096 * i)) ∨
    (∃ i, bottom + 4096 * i < top ∧ v = vpn (bottom + 4096 * i)) ∨ v = vpn heapStart

/-- One of the two loaders makes process `i` from a flat image. -/
inductive Loads (L : Layout) (k : Kernel) (flatImage imageSize : Nat) (i : Fin procsMax) (k' : Kernel) : Prop
  | create : k.createInitProcess L flatImage imageSize = .ok (i, k') → Loads L k flatImage imageSize i k'
  | exec : k.execProcess L flatImage imageSize = .ok (i, k') → Loads L k flatImage imageSize i k'

/-- The user can reach exactly the pages of `S` of process `i`. -/
def UserPages (k : Kernel) (i : Fin procsMax) (S : Vpn → Prop) : Prop :=
  ∀ v, (userFrame (leafAt k.phys.mem (k.procs i).pageTable v)).isSome ↔ S v

/-- Process `i` and process `j` have the same flags on the pages of `S`. -/
def SameFlags (k : Kernel) (i : Fin procsMax) (k' : Kernel) (j : Fin procsMax) (S : Vpn → Prop) : Prop :=
  ∀ v, S v → ∀ mask < 1024, pteHas (leafAt k.phys.mem (k.procs i).pageTable v) mask =
    pteHas (leafAt k'.phys.mem (k'.procs j).pageTable v) mask

section Loads

variable {k₁ k₂ k' k₁' k₂' : Kernel} {F₁ F₂ : List Nat} {flat flat₁ flat₂ imageSize heapStart : Nat}
  {i i₁ i₂ : Fin procsMax} {v : Vpn} {S S' : Vpn → Prop}

theorem UserPages.iff (h : UserPages k i S) : UserPages k i S' ↔ ∀ v, S v ↔ S' v :=
  forall_congr' fun v => by rw [h v]

/-- Either loader adds the pages of the program, with the same flags. -/
theorem Loads.user (h : Loads L k flat imageSize i k') (hs : AllocOk L k.phys F) (ht : TrackOk L k.phys F) :
    UserPages k' i (ProgramPage imageSize k.gUserStackTop k.gUserStackBottom k.gUserHeapStart) ∧
      (∀ v, CodePage imageSize k.gUserStackTop k.gUserStackBottom k.gUserHeapStart v →
        Flagged codeFlags (leafAt k'.phys.mem (k'.procs i).pageTable v)) ∧
      ∀ v, DataPage k.gUserStackTop k.gUserStackBottom k.gUserHeapStart v →
        Flagged dataFlags (leafAt k'.phys.mem (k'.procs i).pageTable v) := by
  rcases h with h | h
  · unfold createInitProcess at h
    cases hslot : k.freeSlot with
    | none =>
        rw [hslot] at h
        cases h
    | some j =>
        rw [hslot] at h
        simp only [bind_eq_ok, Prod.exists, Except.ok.injEq, Prod.mk.injEq] at h
        obtain ⟨pt, s, hb, rfl, rfl⟩ := h
        have hf := initFrame_grows (o := 0) (i := j) hs ht
        simp only [UserPages, setProc, Function.update_self]
        exact buildSpace_user hf.ok hf.track hb
  · simp only [execProcess, bind_eq_ok, Prod.exists, Except.ok.injEq, Prod.mk.injEq] at h
    obtain ⟨pt, s, hb, rfl, rfl⟩ := h
    simp only [UserPages, setProc, Function.update_self]
    exact buildSpace_user hs ht hb

/-- The pages mapped are the ones stated and the page at the top of the stack. -/
theorem programPage_iff (imageSize heapStart : Nat) (v : Vpn) (htop : top % 4096 = 0) (hbot : bottom % 4096 = 0)
    (hle : bottom ≤ top) :
    ProgramPage imageSize top bottom heapStart v ↔ StatedPage imageSize top bottom heapStart v ∨ v = vpn top := by
  constructor
  · rintro (h | ⟨i, hi, rfl⟩ | h)
    · exact .inl (.inl h)
    · by_cases he : bottom + 4096 * i = top
      · exact .inr (by rw [he])
      · exact .inl (.inr (.inl ⟨i, by omega, rfl⟩))
    · exact .inl (.inr (.inr h))
  · rintro ((h | ⟨i, hi, h⟩ | h) | rfl)
    · exact .inl h
    · exact .inr (.inl ⟨i, hi.le, h⟩)
    · exact .inr (.inr h)
    · exact .inr (.inl ⟨(top - bottom) / 4096, by omega, by congr 1; omega⟩)

theorem statedPage_top_iff (htop : top % 4096 = 0) (hbot : bottom % 4096 = 0) (hlt : top < kernelBase) :
    StatedPage imageSize top bottom heapStart (vpn top) ↔
      (∃ i < (imageSize + 4095) / 4096, vpn top = vpn (userBase + 4096 * i)) ∨ vpn top = vpn heapStart := by
  refine or_congr_right (or_iff_right ?_)
  rintro ⟨i, hi, he⟩
  rw [vpn_eq_iff] at he
  unfold kernelBase at hlt
  omega

theorem codePage_or_dataPage (h : ProgramPage imageSize top bottom heapStart v) :
    CodePage imageSize top bottom heapStart v ∨ DataPage top bottom heapStart v := by
  by_cases hd : DataPage top bottom heapStart v
  · exact .inr hd
  · exact .inl ⟨h.resolve_right hd, hd⟩

/-- The two loaders always give the same pages with the same flags. These are the pages stated if and only if
the page at the top of the stack belongs to the image or to the heap. -/
theorem loads_stated_iff (h₁ : Loads L k₁ flat₁ imageSize i₁ k₁') (h₂ : Loads L k₂ flat₂ imageSize i₂ k₂')
    (hs₁ : AllocOk L k₁.phys F₁) (ht₁ : TrackOk L k₁.phys F₁) (hs₂ : AllocOk L k₂.phys F₂) (ht₂ : TrackOk L k₂.phys F₂)
    (hglobals : k₁.gUserStackTop = top ∧ k₁.gUserStackBottom = bottom ∧ k₁.gUserHeapStart = heapStart ∧
      k₂.gUserStackTop = top ∧ k₂.gUserStackBottom = bottom ∧ k₂.gUserHeapStart = heapStart)
    (htop : top % 4096 = 0) (hbot : bottom % 4096 = 0) (hle : bottom ≤ top) (hlt : top < kernelBase) :
    (∃ S, UserPages k₁' i₁ S ∧ UserPages k₂' i₂ S ∧ SameFlags k₁' i₁ k₂' i₂ S) ∧
      (UserPages k₁' i₁ (StatedPage imageSize top bottom heapStart) ∧
          UserPages k₂' i₂ (StatedPage imageSize top bottom heapStart) ∧
          SameFlags k₁' i₁ k₂' i₂ (StatedPage imageSize top bottom heapStart) ↔
        (∃ i < (imageSize + 4095) / 4096, vpn top = vpn (userBase + 4096 * i)) ∨ vpn top = vpn heapStart) := by
  obtain ⟨hu₁, hc₁, hd₁⟩ := h₁.user hs₁ ht₁
  obtain ⟨hu₂, hc₂, hd₂⟩ := h₂.user hs₂ ht₂
  obtain ⟨rfl, rfl, rfl, e₁, e₂, e₃⟩ := hglobals
  rw [e₁, e₂, e₃] at hu₂ hc₂ hd₂
  have hflags : SameFlags k₁' i₁ k₂' i₂
      (ProgramPage imageSize k₁.gUserStackTop k₁.gUserStackBottom k₁.gUserHeapStart) := by
    intro v hv mask hm
    rcases codePage_or_dataPage hv with hc | hd
    · rw [hc₁ v hc mask hm, hc₂ v hc mask hm]
    · rw [hd₁ v hd mask hm, hd₂ v hd mask hm]
  have hpage (v : Vpn) := programPage_iff imageSize k₁.gUserHeapStart v htop hbot hle
  refine ⟨⟨_, hu₁, hu₂, hflags⟩, ?_⟩
  rw [← statedPage_top_iff htop hbot hlt, hu₁.iff, hu₂.iff]
  constructor
  · rintro ⟨h, -, -⟩
    exact (h _).mp ((hpage _).mpr (.inr rfl))
  · intro h
    have hall : ∀ v, ProgramPage imageSize k₁.gUserStackTop k₁.gUserStackBottom k₁.gUserHeapStart v ↔
        StatedPage imageSize k₁.gUserStackTop k₁.gUserStackBottom k₁.gUserHeapStart v := fun v =>
      (hpage v).trans (or_iff_left_of_imp fun he => he ▸ h)
    exact ⟨hall, hall, fun v hv => hflags v ((hall v).mpr hv)⟩

end Loads

theorem createInitProcess_total {j : Fin procsMax} {flat imageSize : Nat} (hslot : k.freeSlot = some j)
    (hb : ∃ r, (k.initFrame L j).phys.buildSpace L k.owner flat imageSize k.gUserStackTop k.gUserStackBottom
      k.gUserHeapStart = .ok r) : ∃ k', k.createInitProcess L flat imageSize = .ok (j, k') := by
  obtain ⟨r, hb⟩ := hb
  unfold createInitProcess
  rw [hslot]
  exact ⟨_, bind_eq_ok.mpr ⟨r, hb, rfl⟩⟩

theorem execProcess_total {flat imageSize : Nat}
    (hb : ∃ r, k.phys.buildSpace L k.owner flat imageSize k.gUserStackTop k.gUserStackBottom k.gUserHeapStart =
      .ok r) : ∃ k', k.execProcess L flat imageSize = .ok (k.cur, k') := by
  obtain ⟨r, hb⟩ := hb
  exact ⟨_, bind_eq_ok.mpr ⟨r, hb, rfl⟩⟩

theorem room_initFrame (L : Layout) (k : Kernel) (j : Fin procsMax) :
    (k.initFrame L j).phys.room L = k.phys.room L := rfl

/-- In the booted system both loaders can make a process of one page. -/
theorem loads_onePage : ∃ (k : Kernel) (F : List Nat) (i : Fin procsMax) (k₁ k₂ : Kernel),
    AllocOk .kernelMap k.phys F ∧ TrackOk .kernelMap k.phys F ∧ k.Globals ∧
      k.createInitProcess .kernelMap kernelBase 1 = .ok (i, k₁) ∧ k.execProcess .kernelMap kernelBase 1 = .ok (k.cur, k₂) := by
  obtain ⟨k, F, -, hb, hroom, -⟩ := exists_booted .kernelMap fun _ => 0
  have hf := initFrame_grows (o := k.owner) (i := 2) hb.ok hb.track
  have hstack : stackPages 0x1020000 0x1010000 = 17 := by decide
  have hroom' := room_initFrame .kernelMap k 2
  obtain ⟨pt, s, h1⟩ : ∃ pt s, (k.initFrame .kernelMap 2).phys.buildSpace .kernelMap k.owner kernelBase 1
      0x1020000 0x1010000 0x3000000 = .ok (pt, s) :=
    buildSpace_room kernelBase 1 0x1020000 hf.ok hf.track (by decide) (by decide) (by omega)
  obtain ⟨pt', s', h2⟩ : ∃ pt s, k.phys.buildSpace .kernelMap k.owner kernelBase 1
      0x1020000 0x1010000 0x3000000 = .ok (pt, s) :=
    buildSpace_room kernelBase 1 0x1020000 hb.ok hb.track (by decide) (by decide) (by omega)
  rw [← hb.globals.stackTop, ← hb.globals.stackBottom, ← hb.globals.heapStart] at h1 h2
  obtain ⟨k₁, hk₁⟩ := createInitProcess_total hb.freeSlot ⟨_, h1⟩
  obtain ⟨k₂, hk₂⟩ := execProcess_total ⟨_, h2⟩
  exact ⟨k, F, 2, k₁, k₂, hb.ok, hb.track, hb.globals, hk₁, hk₂⟩

/-- The page at the top of their stack is the user's, and nobody said so. -/
theorem loads_beyond_stack : ∃ (k : Kernel) (i : Fin procsMax) (k₁ k₂ : Kernel),
    k.createInitProcess .kernelMap kernelBase 1 = .ok (i, k₁) ∧ k.execProcess .kernelMap kernelBase 1 = .ok (k.cur, k₂) ∧
      ¬UserPages k₁ i (StatedPage 1 k.gUserStackTop k.gUserStackBottom k.gUserHeapStart) ∧
      ¬UserPages k₂ k.cur (StatedPage 1 k.gUserStackTop k.gUserStackBottom k.gUserHeapStart) := by
  obtain ⟨k, F, i, k₁, k₂, hs, ht, hg, h1, h2⟩ := loads_onePage
  have hnot : ¬StatedPage 1 k.gUserStackTop k.gUserStackBottom k.gUserHeapStart (vpn k.gUserStackTop) := by
    rw [hg.stackTop, hg.stackBottom, hg.heapStart, statedPage_top_iff (by decide) (by decide) (by decide)]
    rintro (⟨j, hj, h⟩ | h)
    · obtain rfl : j = 0 := by omega
      rw [vpn_eq_iff] at h
      exact absurd h (by decide)
    · rw [vpn_eq_iff] at h
      exact absurd h (by decide)
  have hpage : ProgramPage 1 k.gUserStackTop k.gUserStackBottom k.gUserHeapStart (vpn k.gUserStackTop) := by
    rw [hg.stackTop, hg.stackBottom]
    exact .inr (.inl ⟨16, by decide, rfl⟩)
  refine ⟨k, i, k₁, k₂, h1, h2, fun h => hnot ?_, fun h => hnot ?_⟩
  · exact (h _).mp (((Loads.create h1).user hs ht).1 _ |>.mpr hpage)
  · exact (h _).mp (((Loads.exec h2).user hs ht).1 _ |>.mpr hpage)

/-- They agree with each other. -/
theorem loads_stated_iff_onePage : ∃ (k : Kernel) (i : Fin procsMax) (k₁ k₂ : Kernel) (S : Vpn → Prop),
    k.createInitProcess .kernelMap kernelBase 1 = .ok (i, k₁) ∧ k.execProcess .kernelMap kernelBase 1 = .ok (k.cur, k₂) ∧
      UserPages k₁ i S ∧ UserPages k₂ k.cur S ∧ SameFlags k₁ i k₂ k.cur S := by
  obtain ⟨k, F, i, k₁, k₂, hs, ht, hg, h1, h2⟩ := loads_onePage
  obtain ⟨⟨S, hS⟩, -⟩ := loads_stated_iff (.create h1) (.exec h2) hs ht hs ht
    ⟨hg.stackTop, hg.stackBottom, hg.heapStart, hg.stackTop, hg.stackBottom, hg.heapStart⟩ (by decide) (by decide)
    (by decide) (by decide)
  exact ⟨k, i, k₁, k₂, S, h1, h2, hS⟩

end RiscvOs
