import RiscvOs.Lemmas.Reap

/-!
# `sys_exec`

The caller gives its address space back and gets a flat image and a new space. The page for the arguments
goes back at the end; the old flat image and the page of the old trap frame do not.
-/

namespace RiscvOs

open ByteMem Outcome Kernel

variable {L : Layout} {k k' : Kernel} {F F' : List Nat} {i c : Fin procsMax} {m : Mem} {s s' : Phys}
  {pg flat o : Nat} {p : Proc} {ret : SysRet} {elf : Elf}

/-! ## The flat image -/

section Image

variable {α : Type} {f : α → Nat} {l : List α} {a b : Nat} {x : α}

theorem foldl_min_le_init (f : α → Nat) (l : List α) (a : Nat) : l.foldl (fun a p => min a (f p)) a ≤ a := by
  induction l generalizing a with
  | nil => exact Nat.le_refl a
  | cons z l ih => exact Nat.le_trans (ih _) (Nat.min_le_left _ _)

theorem foldl_min_le (hx : x ∈ l) : l.foldl (fun a p => min a (f p)) a ≤ f x := by
  induction l generalizing a with
  | nil => cases hx
  | cons y l ih =>
      rcases List.mem_cons.mp hx with rfl | hx
      · exact Nat.le_trans (foldl_min_le_init f l _) (Nat.min_le_right _ _)
      · exact ih hx

theorem le_foldl_min (ha : b ≤ a) (h : ∀ x ∈ l, b ≤ f x) : b ≤ l.foldl (fun a p => min a (f p)) a := by
  induction l generalizing a with
  | nil => exact ha
  | cons y l ih => exact ih (Nat.le_min.mpr ⟨ha, h y (by simp)⟩) fun x hx => h x (by simp [hx])

theorem le_foldl_max (hx : x ∈ l) : f x ≤ l.foldl (fun a p => max a (f p)) a := by
  induction l generalizing a with
  | nil => cases hx
  | cons y l ih =>
      rcases List.mem_cons.mp hx with rfl | hx
      · have hle : ∀ (l : List α) a, a ≤ l.foldl (fun a p => max a (f p)) a := by
          intro l
          induction l with
          | nil => exact fun a => Nat.le_refl a
          | cons z l ih => exact fun a => Nat.le_trans (Nat.le_max_left _ _) (ih _)
        exact Nat.le_trans (Nat.le_max_right _ _) (hle l _)
      · exact ih hx

theorem foldl_max_le (ha : a ≤ b) (h : ∀ x ∈ l, f x ≤ b) : l.foldl (fun a p => max a (f p)) a ≤ b := by
  induction l generalizing a with
  | nil => exact ha
  | cons y l ih => exact ih (Nat.max_le.mpr ⟨ha, h y (by simp)⟩) fun x hx => h x (by simp [hx])

/-- The rounding of the bounds of a flat image. -/
theorem image_span {lo hi : Nat} (h1 : 0x1000000 ≤ lo) (h2 : lo / 4096 * 4096 < hi) (h3 : hi ≤ 0x1800000) :
    0x1000000 ≤ lo / 4096 * 4096 ∧ lo / 4096 * 4096 < (hi + 4095) % 2 ^ 64 / 4096 * 4096 ∧
      (hi + 4095) % 2 ^ 64 / 4096 * 4096 ≤ 0x1800000 ∧
      ((hi + 4095) % 2 ^ 64 / 4096 * 4096 + (2 ^ 64 - lo / 4096 * 4096)) % 2 ^ 64 =
        (hi + 4095) % 2 ^ 64 / 4096 * 4096 - lo / 4096 * 4096 ∧
      ((hi + 4095) % 2 ^ 64 / 4096 * 4096 + (2 ^ 64 - lo / 4096 * 4096)) % 2 ^ 64 % 4096 = 0 ∧
      hi ≤ (hi + 4095) % 2 ^ 64 / 4096 * 4096 := by
  have hm : (hi + 4095) % 2 ^ 64 = hi + 4095 := Nat.mod_eq_of_lt (by omega)
  rw [hm]
  omega

end Image

namespace Elf

/-- A program whose segments have no bytes in the file. -/
def Blank (elf : Elf) : Prop := ∀ p ∈ elf.loads, p.pFilesz = 0

theorem Blank.copySegments (h : elf.Blank) : elf.copySegments m flat = m := by
  have hloop : ∀ l : List Phdr, (∀ p ∈ l, p.pFilesz = 0) → ∀ m,
      l.foldl (fun m p => write m ((flat + (p.pVaddr + (2 ^ 64 - elf.minVaddr))) % 2 ^ 64) p.pFilesz
        fun k => elf.data (p.pOffset + k)) m = m := by
    intro l
    induction l with
    | nil => exact fun _ _ => rfl
    | cons p l ih =>
        intro hl m
        rw [List.foldl_cons, ih fun p hp => hl p (by simp [hp]), hl p (by simp)]
        exact funext fun x => write_outside (by omega)
  exact hloop _ h m

/-- The flat image spans the bytes that the segments have in the file. -/
def Spans (elf : Elf) : Prop :=
  ∀ p ∈ elf.loads, elf.minVaddr ≤ p.pVaddr ∧ p.pVaddr + p.pFilesz ≤ elf.minVaddr + elf.imageSize

theorem minVaddr_lt (elf : Elf) : elf.minVaddr < 2 ^ 64 := by
  have := foldl_min_le_init Phdr.pVaddr elf.loads (2 ^ 64 - 1)
  unfold minVaddr
  omega

/-- The loop over the segments, where no address wraps. -/
theorem Spans.copySegments_eq (h : elf.Spans) (hflat : flat + elf.imageSize < 2 ^ 64) :
    elf.copySegments m flat = elf.loads.foldl
      (fun m p => write m (flat + (p.pVaddr - elf.minVaddr)) p.pFilesz fun k => elf.data (p.pOffset + k)) m := by
  refine List.foldl_ext _ _ _ fun m p hp => ?_
  obtain ⟨h1, h2⟩ := h p hp
  have hmin := elf.minVaddr_lt
  rw [show (flat + (p.pVaddr + (2 ^ 64 - elf.minVaddr))) % 2 ^ 64 = flat + (p.pVaddr - elf.minVaddr) by omega]

/-- Copying the segments writes to the flat image only. -/
theorem Spans.copySegments_outside {a : Nat} (h : elf.Spans) (hflat : flat + elf.imageSize < 2 ^ 64)
    (ha : ¬(flat ≤ a ∧ a < flat + elf.imageSize)) : elf.copySegments m flat a = m a := by
  rw [h.copySegments_eq hflat]
  refine foldl_write_outside fun p hp hx => ha ?_
  obtain ⟨h1, h2⟩ := h p hp
  omega

variable (h : elf.Linked)

include h

/-- The flat image spans the segments, which lie between `USER_BASE` and the heap. -/
theorem Linked.span : userBase ≤ elf.minVaddr ∧ elf.minVaddr < elf.maxVaddr ∧ elf.maxVaddr ≤ 0x1800000 ∧
    elf.imageSize = elf.maxVaddr - elf.minVaddr ∧ elf.imageSize % 4096 = 0 ∧
    ∀ p ∈ elf.loads, elf.minVaddr ≤ p.pVaddr ∧ p.pVaddr + p.pMemsz ≤ elf.maxVaddr := by
  obtain ⟨p₀, hp₀, hpos⟩ := h.nonempty
  have hmin : ∀ p ∈ elf.loads, elf.minVaddr ≤ p.pVaddr := fun p hp =>
    Nat.le_trans (Nat.div_mul_le_self _ _) (foldl_min_le (f := Phdr.pVaddr) hp)
  have hlow : userBase ≤ elf.loads.foldl (fun a p => min a p.pVaddr) (2 ^ 64 - 1) :=
    le_foldl_min (by decide) fun p hp => (h.segments p hp).1
  have hmod : ∀ p ∈ elf.loads, (p.pVaddr + p.pMemsz) % 2 ^ 64 = p.pVaddr + p.pMemsz := fun p hp => by
    have := (h.segments p hp).2.1
    omega
  have hmax : ∀ p ∈ elf.loads,
      p.pVaddr + p.pMemsz ≤ elf.loads.foldl (fun a p => max a ((p.pVaddr + p.pMemsz) % 2 ^ 64)) 0 := by
    intro p hp
    have := le_foldl_max (f := fun p : Phdr => (p.pVaddr + p.pMemsz) % 2 ^ 64) (a := 0) hp
    rwa [hmod p hp] at this
  have hhigh : elf.loads.foldl (fun a p => max a ((p.pVaddr + p.pMemsz) % 2 ^ 64)) 0 ≤ 0x1800000 :=
    foldl_max_le (by decide) fun p hp => by
      rw [hmod p hp]
      exact (h.segments p hp).2.1
  have hm0 := hmin p₀ hp₀
  have hx0 := hmax p₀ hp₀
  unfold imageSize maxVaddr pgRoundUp at *
  unfold minVaddr userBase at *
  generalize elf.loads.foldl (fun a p => min a p.pVaddr) (2 ^ 64 - 1) = lo at *
  generalize elf.loads.foldl (fun a p => max a ((p.pVaddr + p.pMemsz) % 2 ^ 64)) 0 = hi at *
  obtain ⟨h1, h2, h3, h4, h5, h6⟩ := image_span hlow (by omega) hhigh
  exact ⟨h1, h2, h3, h4, h5, fun p hp => ⟨hmin p hp, Nat.le_trans (hmax p hp) h6⟩⟩

theorem Linked.spans : elf.Spans := fun p hp => by
  obtain ⟨_, h2, _, h4, _, h6⟩ := h.span
  have h7 := h6 p hp
  have h8 := (h.segments p hp).2.2
  omega

end Elf

namespace Kernel

/-- The number of pages of the flat image. -/
def imagePages (elf : Elf) : Nat := (elf.imageSize + 4095) / 4096

/-- A flat image in a fresh block of pages. -/
structure ImageLoaded (L : Layout) (k : Kernel) (F : List Nat) (elf : Elf) (flat : Nat) (k' : Kernel)
    (F' : List Nat) : Prop where
  grows : Grows L k.owner k.phys F k'.phys F' fun _ => False
  was : ∀ pg, InBlock flat (imagePages elf) pg → Avail L k.phys F pg
  taken : ∀ pg, InBlock flat (imagePages elf) pg → ¬Avail L k'.phys F' pg
  blank : elf.Blank → ∀ x < elf.imageSize, k'.phys.mem (flat + x) = 0
  globals : k'.Globals
  state : k' = { k with
    phys := k'.phys, gUserStackTop := k'.gUserStackTop, gUserStackBottom := k'.gUserStackBottom
    gUserHeapStart := k'.gUserHeapStart, gUserHeapEnd := k'.gUserHeapEnd }

theorem imagePages_pos (he : elf.Linked) : 0 < imagePages elf ∧ imagePages elf ≤ 2048 := by
  obtain ⟨h1, h2, h3, h4, _⟩ := he.span
  unfold imagePages userBase at *
  omega

/-- The flat image lies in a block of fresh pages. -/
theorem loadImage_block (hs : AllocOk L k.phys F) (ht : TrackOk L k.phys F) (hn : 0 < imagePages elf)
    (hlt : imagePages elf < 2 ^ 50) (h : k.loadImage L elf = .ok (flat, k')) :
    elf.eMagic = elfMagic ∧ ∃ s F' top bottom heapStart heapEnd,
      AllocBlock L k.owner k.phys F flat (imagePages elf) s F' ∧
      elf.getSymbolAddress "__user_stack_top" = .ok top ∧
      elf.getSymbolAddress "__user_stack_bottom" = .ok bottom ∧
      elf.getSymbolAddress "__user_heap_start" = .ok heapStart ∧
      elf.getSymbolAddress "__user_heap_end" = .ok heapEnd ∧
      k' = { k with
        phys := { s with mem := elf.copySegments (memset s.mem flat 0 elf.imageSize) flat }
        gUserStackTop := top, gUserStackBottom := bottom
        gUserHeapStart := heapStart, gUserHeapEnd := heapEnd } := by
  simp only [loadImage, ite_error_eq_ok, not_not, bind_eq_ok, Prod.exists, Except.ok.injEq, Prod.mk.injEq] at h
  obtain ⟨hm, pa, s, h1, top, h2, bottom, h3, heapStart, h4, heapEnd, h5, rfl, rfl⟩ := h
  have hnext := hs.next_lt
  obtain ⟨F', hb⟩ := allocPages_block hs ht hn (by unfold imagePages at *; omega) h1
  exact ⟨hm, s, F', top, bottom, heapStart, heapEnd, hb, h2, h3, h4, h5, rfl⟩

/-- The segments go to that block. -/
theorem image_grows (hs : AllocOk L s F) {s₁ : Phys} {F₁ : List Nat}
    (hb : AllocBlock L o s F flat (imagePages elf) s₁ F₁) (hn : 0 < imagePages elf) (he : elf.Spans) :
    flat % 4096 = 0 ∧ flat + imagePages elf * 4096 < 2 ^ 63 ∧
      Grows L o s F { s₁ with mem := elf.copySegments (memset s₁.mem flat 0 elf.imageSize) flat } F₁
        fun _ => False := by
  have hpage : ∀ pg, InBlock flat (imagePages elf) pg → IsPage L pg := fun pg hpg => hs.isPage (hb.was pg hpg)
  have hfirst := hpage flat ⟨0, hn, by omega⟩
  have hlast := (hpage _ ⟨imagePages elf - 1, by omega, rfl⟩).lt_64
  have htaken : ∀ pg, InBlock flat (imagePages elf) pg → ¬Avail L s₁ F₁ pg :=
    fun pg hpg hav => ((hb.avail pg).mp hav).2 hpg
  have hsize : elf.imageSize ≤ imagePages elf * 4096 := by
    unfold imagePages
    omega
  have hw : Grows L o s₁ F₁ { s₁ with mem := elf.copySegments (memset s₁.mem flat 0 elf.imageSize) flat } F₁
      (InBlock flat (imagePages elf)) := by
    refine .write hb.grows.ok hb.grows.track (fun a ha => ?_) htaken
    have hout : ¬(flat ≤ a ∧ a < flat + elf.imageSize) := fun hx =>
      ha (inBlock_pageOf hfirst.aligned hx.1 (by omega))
    rw [he.copySegments_outside (by omega) hout, memset_outside hout]
  exact ⟨hfirst.aligned, by omega, hb.grows.trans hw fun pg hpg => .inr (hb.was pg hpg)⟩

theorem loadImage_spec (hs : AllocOk L k.phys F) (ht : TrackOk L k.phys F) (he : elf.Linked)
    (h : k.loadImage L elf = .ok (flat, k')) : ∃ F', ImageLoaded L k F elf flat k' F' := by
  have hn := imagePages_pos he
  obtain ⟨_, s, F', top, bottom, heapStart, heapEnd, hb, h1, h2, h3, h4, rfl⟩ :=
    loadImage_block hs ht hn.1 (by omega) h
  obtain rfl : 0x1020000 = top := Except.ok.inj (he.stackTop.symm.trans h1)
  obtain rfl : 0x1010000 = bottom := Except.ok.inj (he.stackBottom.symm.trans h2)
  obtain rfl : 0x3000000 = heapStart := Except.ok.inj (he.heapStart.symm.trans h3)
  obtain rfl : 0x3020000 = heapEnd := Except.ok.inj (he.heapEnd.symm.trans h4)
  obtain ⟨_, _, hg⟩ := image_grows hs hb hn.1 he.spans
  refine ⟨F', hg, hb.was, fun pg hpg hav => ((hb.avail pg).mp hav).2 hpg, fun hblank x hx => ?_,
    ⟨rfl, rfl, rfl, rfl⟩, rfl⟩
  show elf.copySegments (memset s.mem flat 0 elf.imageSize) flat (flat + x) = 0
  rw [hblank.copySegments]
  exact memset_inside (by omega) (by omega)

/-- The record of a process that runs a new program. -/
def execRecord (L : Layout) (c : Fin procsMax) (p : Proc) (pt flat n : Nat) : Proc :=
  { p with
    tf := L.tfStackFrame c, pageTable := pt, state := .running, heapEnd := 0x3001000
    userStackTop := 0x1020000, entryPoint := userBase, imagePa := flat, imageNpages := n }

/-- The user's pages of a new process: the program, its stack and the first page of its heap. -/
def InitPage (v : Vpn) : Prop := ProgramPage 0x800000 0x1020000 0x1010000 0x3000000 v

theorem initPage_of_program {v : Vpn} (he : elf.Linked)
    (hv : ProgramPage elf.imageSize 0x1020000 0x1010000 0x3000000 v) : InitPage v := by
  obtain ⟨h1, h2, h3, h4, h5, -⟩ := he.span
  refine hv.imp_left fun ⟨i, hi, he⟩ => ⟨i, ?_, he⟩
  unfold userBase at *
  omega

/-- A process without an address space gets a new program. -/
structure Loaded (L : Layout) (k : Kernel) (F : List Nat) (c : Fin procsMax) (k' : Kernel) (F' : List Nat) :
    Prop where
  inv : k'.Inv L F'
  turn : Turn L k F c k' F'
  grows : Grows L k.owner k.phys F k'.phys F' fun _ => False
  globals : k'.Globals
  record : ∃ pt flat n, pt ≠ 0 ∧ k'.procs = Function.update k.procs c (execRecord L c (k.procs c) pt flat n)
  identity : Identity L k'.phys.mem (k'.procs c).pageTable
  code : CodeLeaf (leafAt k'.phys.mem (k'.procs c).pageTable (vpn userBase))
  user : ∀ v pg, userFrame (leafAt k'.phys.mem (k'.procs c).pageTable v) = some pg → InitPage v
  data : ∀ v, DataPage 0x1020000 0x1010000 0x3000000 v →
    DataLeaf (leafAt k'.phys.mem (k'.procs c).pageTable v)
  currentProc : k'.currentProc = k.currentProc
  idleProc : k'.idleProc = k.idleProc

theorem load_spec {ep : Fin procsMax} (hk : k.Inv L F) (hc : k.currentProc = some c) (hl : k.Live c)
    (he : elf.Linked) (h : k.extractFlatBinaryFromElf L elf false = .ok (ep, k')) :
    ep = c ∧ ∃ F', Loaded L k F c k' F' := by
  simp only [extractFlatBinaryFromElf, execProcess, bind_eq_ok, Prod.exists, Bool.false_eq_true, if_false,
    Except.ok.injEq, Prod.mk.injEq] at h
  obtain ⟨flat, k₁, h1, pt, s, h2, rfl, hk'⟩ := h
  obtain ⟨F₁, hi⟩ := loadImage_spec hk.ok hk.track he h1
  have hcur : k₁.currentProc = some c := by
    rw [hi.state]
    exact hc
  have hprocs₁ : k₁.procs = k.procs := by rw [hi.state]
  have howner : k₁.owner = k.owner := by
    rw [owner_eq hcur, owner_eq hc, hprocs₁]
  rw [howner] at h2
  obtain ⟨F', hn, huser, hid, hcode, -, hdata, -⟩ := buildSpace_spec hi.grows.ok hi.grows.track h2
  have hg := hi.grows.trans hn.grows fun _ h => h.elim
  have hpt := (hn.space.page pt inSpace_root).1.ne_zero
  rw [cur_eq hcur, hi.globals.heapStart, hi.globals.stackTop, hprocs₁] at hk'
  have hprocs : k'.procs = Function.update k.procs c
      (execRecord L c (k.procs c) pt flat (imagePages elf)) := by
    rw [← hk', ← hprocs₁]
    rfl
  have hphys : k'.phys = s := by
    rw [← hk']
    rfl
  subst hphys
  have hpc := hk.proc c hl
  have hfrom : ∀ r pg, (execRecord L c (k.procs c) pt flat (imagePages elf)).holds L k'.phys.mem c r = some pg →
      Avail L k.phys F pg := by
    intro r pg hr
    cases r with
    | space q => exact hi.grows.avail pg (hn.new pg ⟨q, (Proc.holds_space_some hr).2⟩)
    | tf => exact absurd rfl (Proc.holds_tf_some hr).1
    | image n => exact hi.was pg ⟨n, (Proc.holds_image_some hr).2⟩
  have hmem : ∀ i, i ≠ c → k.Live i → (k.procs i).pageTable ≠ 0 → ∀ a,
      IsTable k.phys.mem (k.procs i).pageTable (pageOf a) → k'.phys.mem a = k.phys.mem a :=
    fun i _ hli hpti a ha => hg.mem a (((hk.proc i hli).spaceOk hpti).tables.page _ ha).2 id
  refine ⟨cur_eq hcur, F', ?_, ?_, hg, ?_, ⟨pt, flat, imagePages elf, hpt, hprocs⟩, ?_,
    ?_, fun v pg hv => ?_, fun v hv => ?_, ?_, ?_⟩
  · refine hk.grow hg rfl hprocs (fun _ h => h.elim) (fun _ => ?_) fun _ r pg hr => .inr (hfrom r pg hr)
    refine .of_parts (fun _ => ⟨hn.space, hn.map⟩) (fun htf => absurd rfl htf) (fun _ pg hpg => ?_)
      (fun r pg e hr hu hp => ?_) hpc.pid hpc.parent
    · exact ⟨hk.ok.isPage (hi.was pg hpg), fun hav => hi.taken pg hpg (hn.grows.avail pg hav),
        fun _ hs => hi.taken pg hpg (hn.new pg hs), fun htf => absurd rfl htf⟩
    · refine .inl ?_
      rw [hg.owner_eq hk.track hu (hp ▸ hfrom r pg hr), owner_eq hc]
      rfl
  · exact .of_step hk hprocs hmem (fun pg hav => .inl (hg.avail pg hav))
      (fun e hu => (hg.new e hu).imp_right And.right) fun _ r pg hr => .inr (.inl (hfrom r pg hr))
  · rw [← hk']
    exact ⟨rfl, hi.globals.stackBottom, rfl, hi.globals.heapEnd⟩
  · rw [hprocs, Function.update_self]
    obtain ⟨h1, h2, h3, h4, _⟩ := he.span
    refine hid ?_ ?_ ?_
    · unfold userBase kernelBase at *
      omega
    · rw [hi.globals.stackTop]
      decide
    · rw [hi.globals.heapStart]
      decide
  · rw [hprocs, Function.update_self]
    rw [hi.globals.stackTop, hi.globals.stackBottom, hi.globals.heapStart] at hcode
    exact hcode _ ⟨⟨0, (imagePages_pos he).1, rfl⟩, not_dataPage_userBase⟩
  · rw [hprocs, Function.update_self] at hv
    have hv := huser v pg hv
    rw [hi.globals.stackTop, hi.globals.stackBottom, hi.globals.heapStart] at hv
    exact initPage_of_program he hv
  · rw [hprocs, Function.update_self]
    rw [hi.globals.stackTop, hi.globals.stackBottom, hi.globals.heapStart] at hdata
    exact hdata v hv
  · rw [← hk']
    exact hcur.trans hc.symm
  · rw [← hk']
    show k₁.idleProc = k.idleProc
    rw [hi.state]

/-- `process_free_userspace` of a process with an address space. -/
theorem processFree_spec (hk : k.Inv L F) (hl : k.Live c) (hpt : (k.procs c).pageTable ≠ 0)
    (h : k.processFreeUserspace c = .ok k') : ∃ F', k'.Inv L F' ∧ Turn L k F c k' F' ∧ Spares L k F c k' ∧
      k' = { k with phys := k'.phys }.setProc c { k.procs c with pageTable := 0 } := by
  have hp := hk.proc c hl
  rw [processFreeUserspace_eq hpt] at h
  simp only [bind_eq_ok, Except.ok.injEq] at h
  obtain ⟨n, _, s₁, h1, s₂, h2, hk'⟩ := h
  obtain ⟨t₁, t₂, F', ht1, ht2, hf⟩ := freeSpace_spec hk.ok hk.track (hp.spaceOk hpt)
    (fun v hv => (hp.map hpt).rwx hv) n
  obtain rfl : s₁ = t₁ := Except.ok.inj (h1.symm.trans ht1)
  obtain rfl : s₂ = t₂ := Except.ok.inj (h2.symm.trans ht2)
  generalize s₂.freePage (k.procs c).pageTable = s₃ at hf hk'
  subst hk'
  have hD : ∀ pg, InSpace k.phys.mem (k.procs c).pageTable pg → ∃ q, k.Holds L c (.space q) pg :=
    fun pg hpg => holds_space hl hpt hpg
  -- the roles that are left are those of before
  have hfrom : ∀ r pg, ({ k.procs c with pageTable := 0 } : Proc).holds L s₃.mem c r = some pg →
      (k.procs c).holds L k.phys.mem c r = some pg ∧ ∀ q, r ≠ .space q := by
    intro r pg hr
    cases r with
    | space q => exact absurd rfl (Proc.holds_space_some hr).1
    | tf => exact ⟨hr, fun q => by simp⟩
    | image n => exact ⟨hr, fun q => by simp⟩
  have hkeep : ∀ r pg, ({ k.procs c with pageTable := 0 } : Proc).holds L s₃.mem c r = some pg →
      ¬Avail L s₃ F' pg := by
    intro r pg hr hav
    obtain ⟨hr', hne⟩ := hfrom r pg hr
    rcases (hf.avail pg).mp hav with hav | hin
    · exact (hp.page r pg hr').2 hav
    · obtain ⟨q, hq⟩ := hD pg hin
      exact hne q (hp.inj _ _ pg hr' hq.2)
  have hspares : Spares L k F c ({ k with phys := s₃ }.setProc c { k.procs c with pageTable := 0 }) :=
    .of_frees hf fun pg hpg => by
      obtain ⟨q, hq⟩ := hD pg hpg
      exact .inr ⟨_, by simp, hq⟩
  refine ⟨F', ?_, ?_, hspares, rfl⟩
  · refine hk.release hf rfl rfl (fun pg hpg i hi r hr => ?_) (fun _ => ?_)
      fun _ r pg hr => ⟨r, hl, (hfrom r pg hr).1⟩
    · obtain ⟨q, hq⟩ := hD pg hpg
      exact hi (hk.apart i c r _ pg hr hq)
    · refine ⟨fun r pg hr => ⟨(hp.page r pg (hfrom r pg hr).1).1, hkeep r pg hr⟩,
        fun r r' pg hr hr' => hp.inj r r' pg (hfrom r pg hr).1 (hfrom r' pg hr').1,
        fun r pg e hr hu he => ?_, fun h0 => absurd rfl h0, hp.pid, hp.parent⟩
      have ht := hf.table e hu
      rw [ht] at hu he ⊢
      exact hp.owner r pg e (hfrom r pg hr).1 hu he
  · refine .of_step hk rfl (fun i hi hli hpti a ha => hspares.space hk hi hli hpti ha.inSpace) (fun pg hav => ?_)
      (fun e hu => .inl (hf.table e hu)) fun _ r pg hr => .inl ⟨hl, (hfrom r pg hr).1⟩
    · refine ((hf.avail pg).mp hav).imp_right fun hin => ?_
      obtain ⟨q, hq⟩ := hD pg hin
      exact ⟨_, by simp, hq⟩

/-! ## Arguments -/

/-- The arguments are copied into the page of `argv_buf`. -/
theorem copyArgs_spec {argvBuf argv n : Nat} {a : Nat} (hn : a + n ≤ 32)
    (h : k.copyArgs argvBuf argv a n = .ok k') :
    k' = { k with phys := { k.phys with mem := k'.phys.mem } } ∧
      ∀ x, ¬(argvBuf ≤ x ∧ x < argvBuf + 4096) → k'.phys.mem x = k.phys.mem x := by
  induction n generalizing k a with
  | zero =>
      simp only [copyArgs, Except.ok.injEq] at h
      subst h
      exact ⟨rfl, fun _ _ => rfl⟩
  | succ n ih =>
      simp only [copyArgs, bind_eq_ok] at h
      obtain ⟨ptr, _, str, _, h⟩ := h
      obtain ⟨h1, h2⟩ := ih (by omega) h
      refine ⟨by rw [h1], fun x hx => ?_⟩
      rw [h2 x hx]
      dsimp only
      refine write_outside ?_
      unfold argvRow maxArgLength
      omega

theorem rowString_length (m : Mem) (argvBuf n : Nat) : (rowString m argvBuf n).length ≤ maxArgLength := by
  unfold rowString
  refine Nat.le_trans (List.takeWhile_sublist _).length_le ?_
  simp

/-- The strings go to the stack, above its bottom. -/
theorem pushArgs_spec {argvBuf n sp sp' : Nat} {ptrs ptrs' : List Nat} (hk : k.Inv L F) (hl : k.Live c)
    (hpt : (k.procs c).pageTable ≠ 0) (hs : k.satp = (k.procs c).pageTable) (hg : k.Globals)
    (hlo : 0x1010000 ≤ sp) (hhi : sp ≤ 0x1020000)
    (h : k.pushArgs L argvBuf n sp ptrs = .ok (sp', ptrs', k')) :
    UserWrites k c k' ∧ 0x1010000 ≤ sp' ∧ sp' ≤ 0x1020000 ∧ ptrs'.length = ptrs.length + n := by
  induction n generalizing k sp ptrs with
  | zero =>
      simp only [pushArgs, Except.ok.injEq, Prod.mk.injEq] at h
      obtain ⟨rfl, rfl, rfl⟩ := h
      exact ⟨.refl k c, hlo, hhi, rfl⟩
  | succ n ih =>
      have hlen := rowString_length k.phys.mem argvBuf n
      simp only [pushArgs] at h
      generalize rowString k.phys.mem argvBuf n = str at h hlen
      generalize hsp₁ : (sp + (2 ^ 64 - (str.length + 1))) % 2 ^ 64 / 8 * 8 = sp₁ at h
      unfold maxArgLength at hlen
      have hsp : sp₁ + (str.length + 1) ≤ sp := by omega
      rw [hg.stackBottom, ite_error_eq_ok] at h
      obtain ⟨hbot, h⟩ := h
      simp only [bind_eq_ok] at h
      obtain ⟨k₁, h1, h2⟩ := h
      have hw : UserWrites k c k₁ := by
        refine storeBytes_spec hk hl hpt hs ?_ h1
        simp only [List.length_append, List.length_singleton]
        unfold kernelBase
        omega
      have hp := hw.procs
      have hg₁ : k₁.Globals := by
        rw [hw.state]
        exact ⟨hg.stackTop, hg.stackBottom, hg.heapStart, hg.heapEnd⟩
      have hs₁ : k₁.satp = (k₁.procs c).pageTable := by rw [hp, ← hs, hw.state]
      obtain ⟨hw', h3, h4, h5⟩ := ih (hw.inv hk hl hpt) (hw.live.mpr hl) (by rwa [hp]) hs₁ hg₁
        (by omega) (by omega) h2
      refine ⟨hw.trans hw' hk hl hpt, h3, h4, ?_⟩
      rw [h5, List.length_cons]
      omega

theorem flatMap_bytes_length (l : List Nat) :
    (l.flatMap fun p => (List.range 8).map (byteOf p)).length = 8 * l.length := by
  induction l with
  | nil => rfl
  | cons x l ih =>
      rw [List.flatMap_cons, List.length_append, ih]
      simp
      omega

theorem setupUserArguments_spec {argvBuf argc sp : Nat} (hk : k.Inv L F) (hl : k.Live c)
    (hpt : (k.procs c).pageTable ≠ 0) (hs : k.satp = (k.procs c).pageTable) (hg : k.Globals)
    (h : k.setupUserArguments L argvBuf argc k.gUserStackTop = .ok (sp, k')) :
    argc ≤ maxArgs ∧ UserWrites k c k' := by
  unfold setupUserArguments at h
  rw [ite_error_eq_ok] at h
  obtain ⟨hargc, h⟩ := h
  simp only [bind_eq_ok, Prod.exists] at h
  obtain ⟨sp₁, ptrs, k₁, h1, h⟩ := h
  rw [hg.stackTop] at h1
  obtain ⟨hw, hlo, hhi, hlen⟩ := pushArgs_spec hk hl hpt hs hg (by decide) (by decide) h1
  rw [ite_error_eq_ok] at h
  obtain ⟨_, h⟩ := h
  simp only [bind_eq_ok, Except.ok.injEq, Prod.mk.injEq] at h
  obtain ⟨k₂, h2, _, rfl⟩ := h
  have hp := hw.procs
  have hs₁ : k₁.satp = (k₁.procs c).pageTable := by rw [hp, ← hs, hw.state]
  refine ⟨by omega, hw.trans (storeBytes_spec (hw.inv hk hl hpt) (hw.live.mpr hl) (by rwa [hp]) hs₁ ?_ h2)
    hk hl hpt⟩
  rw [flatMap_bytes_length, List.length_append, List.length_singleton, hlen, List.length_nil]
  unfold maxArgs at hargc
  unfold kernelBase
  omega

/-! ## The call -/

theorem tarfsLookup_mem {va : Nat} {fs : Initramfs} (h : k.tarfsLookup va fs = .ok (some elf)) :
    ∃ f ∈ fs, f.2 = elf := by
  induction fs with
  | nil =>
      simp only [tarfsLookup, Except.ok.injEq] at h
      cases h
  | cons f fs ih =>
      obtain ⟨name, e⟩ := f
      simp only [tarfsLookup, bind_eq_ok] at h
      obtain ⟨b, _, h⟩ := h
      split at h
      · simp only [Except.ok.injEq, Option.some.injEq] at h
        exact ⟨(name, e), by simp, h⟩
      · obtain ⟨f, hf, he⟩ := ih h
        exact ⟨f, by simp [hf], he⟩

/-- The page for the arguments, filled or not. -/
theorem argvBuf_spec {argvBuf argv : Nat} {argc : Int} {k₁ : Kernel} (hk : k.Inv L F)
    (hal : k.phys.allocPages L k.owner 1 = .ok (argvBuf, s)) (hargc : argc ≤ 8)
    (h : copyArgv { k with phys := s } argvBuf argv argc = .ok k₁) :
    ∃ F₁, k₁.Inv L F₁ ∧ Turn L k F c k₁ F₁ ∧ Spares L k F c k₁ ∧ Spare L k₁ F₁ argvBuf ∧
      Avail L k.phys F argvBuf ∧ k₁ = { k with phys := k₁.phys } := by
  obtain ⟨F₁, hb⟩ := allocPages_one hk.ok hk.track hal
  have hpg := hk.ok.isPage hb.was_one
  have hstate : k₁ = { k with phys := { s with mem := k₁.phys.mem } } ∧
      ∀ x, ¬(argvBuf ≤ x ∧ x < argvBuf + 4096) → k₁.phys.mem x = s.mem x := by
    unfold copyArgv at h
    split at h
    · exact copyArgs_spec (by omega) h
    · simp only [Except.ok.injEq] at h
      subst h
      exact ⟨rfl, fun _ _ => rfl⟩
  obtain ⟨hst, hmem⟩ := hstate
  have hw : Grows L k.owner s F₁ { s with mem := k₁.phys.mem } F₁ (· = argvBuf) := by
    refine .write hb.grows.ok hb.grows.track (fun a ha => hmem a fun hx => ha ?_) fun pg he => ?_
    · exact (pageOf_eq_iff hpg.aligned).mpr hx
    · rw [he]
      exact hb.not_avail
  have hphys : k₁.phys = { s with mem := k₁.phys.mem } := by rw [hst]
  have hg : Grows L k.owner k.phys F k₁.phys F₁ fun _ => False := by
    rw [hphys]
    exact hb.grows.trans hw fun pg he => .inr (by rw [he]; exact hb.was_one)
  have hal : Alone L k F k₁ F₁ := .of_grows hk hg (by rw [hst]) fun _ h => h.elim
  refine ⟨F₁, hal.inv hk, Turn.refl.grows hal hk hg, .of_grows hg fun _ h => h.elim,
    ⟨hpg, ?_, fun i r hr => ?_⟩, hb.was_one, by rw [hst]⟩
  · rw [hphys]
    exact fun hav => hb.not_avail (hw.avail _ hav)
  · obtain ⟨hl, hr⟩ := (hal.holds hk).mp hr
    exact ((hk.proc i hl).page r _ hr).2 hb.was_one

/-- The end of `sys_exec`: the page for the arguments goes back and the trap frame is made. -/
theorem execFrame_spec {argvBuf : Nat} (sp : Nat) {k₁ : Kernel} {F₁ : List Nat} (ht : Turn L k F c k₁ F₁)
    (hk : k₁.Inv L F₁) (hsp : Spare L k₁ F₁ argvBuf) (hav : Avail L k.phys F argvBuf)
    (htf : (k₁.procs c).tf = L.tfStackFrame c) :
    ∃ F₂, (k₁.execFrame L c argvBuf sp).Inv L F₂ ∧ Turn L k F c (k₁.execFrame L c argvBuf sp) F₂ ∧
      ∀ a, pageOf a ≠ argvBuf → ¬(L.tfStackFrame c ≤ a ∧ a < L.tfTop c) →
        (k₁.execFrame L c argvBuf sp).phys.mem a = k₁.phys.mem a := by
  have hf := Frees.freePage hk.ok hk.track hsp.page hsp.taken
  have ha1 : Alone L k₁ F₁ { k₁ with phys := k₁.phys.freePage argvBuf } (argvBuf :: F₁) :=
    .of_frees hk hf rfl fun pg he i r => by
      rw [he]
      exact hsp.free i r
  have hk1 := ha1.inv hk
  have ht1 := ht.alone ha1 hk fun pg hp => by
    rcases (hf.avail pg).mp hp with hp | rfl
    · exact ht.avail pg hp
    · exact .inl hav
  -- the trap frame lies on the kernel stack
  have hframe : ∀ a, ¬(L.tfStackFrame c ≤ a ∧ a < L.tfTop c) →
      (k₁.execFrame L c argvBuf sp).phys.mem a = (k₁.phys.freePage argvBuf).mem a := by
    intro a hlow
    have hout : ¬((k₁.procs c).tf ≤ a ∧ a < (k₁.procs c).tf + frameSize) := fun hx => hlow <| by
      rw [htf, tfStackFrame_add] at hx
      exact hx
    have hword : ∀ {m : Mem} {j w : Nat}, j < 32 → setTfWord m (k₁.procs c).tf j w a = m a := by
      intro m j w hj
      exact store64_outside (by unfold frameSize at hout; omega)
    exact ((hword (by decide)).trans (hword (by decide))).trans ((hword (by decide)).trans (memset_outside hout))
  have hg : Grows L 0 (k₁.phys.freePage argvBuf) (argvBuf :: F₁) (k₁.execFrame L c argvBuf sp).phys
      (argvBuf :: F₁) (· < L.freeRam) :=
    .write hf.ok hf.track (fun a ha => hframe a fun hx => ha (pageOf_lt (Nat.lt_of_lt_of_le hx.2 (L.tfTop_le c))))
      fun pg hlow hp => absurd (hf.ok.isPage hp).ge (by omega)
  have ha2 : Alone L { k₁ with phys := k₁.phys.freePage argvBuf } (argvBuf :: F₁)
      (k₁.execFrame L c argvBuf sp) (argvBuf :: F₁) :=
    .of_grows hk1 hg rfl fun pg hlow i hl hpt hta =>
      absurd (((hk1.proc i hl).spaceOk hpt).page pg hta.inSpace).1.ge (by omega)
  refine ⟨_, ha2.inv hk1, ht1.grows ha2 hk1 hg, fun a hne hge => ?_⟩
  rw [hframe a hge]
  exact hf.mem a hne id

theorem pushArgv_argc {argvBuf sp argvPtr : Nat} {argc : Int}
    (h : k.pushArgv L argvBuf argc = .ok (sp, argvPtr, k')) : argc ≤ 8 := by
  unfold pushArgv setupUserArguments at h
  split at h
  · simp only [bind_eq_ok, Prod.exists, ite_error_eq_ok] at h
    obtain ⟨_, _, ⟨hargc, _⟩, _⟩ := h
    unfold maxArgs at hargc
    omega
  · omega

theorem pushArgv_spec {argvBuf sp argvPtr : Nat} {argc : Int} (hk : k.Inv L F) (hl : k.Live c)
    (hpt : (k.procs c).pageTable ≠ 0) (hs : k.satp = (k.procs c).pageTable) (hg : k.Globals)
    (h : k.pushArgv L argvBuf argc = .ok (sp, argvPtr, k')) : UserWrites k c k' := by
  unfold pushArgv at h
  split at h
  · simp only [bind_eq_ok, Prod.exists, Except.ok.injEq, Prod.mk.injEq] at h
    obtain ⟨_, k₁, h1, _, _, rfl⟩ := h
    exact (setupUserArguments_spec hk hl hpt hs hg h1).2
  · simp only [Except.ok.injEq, Prod.mk.injEq] at h
    obtain ⟨_, _, rfl⟩ := h
    exact .refl k c

theorem activate_same (name : List UInt8) (i : Fin procsMax) :
    Same (k.procs i) ((k.activate L c name).procs i) := by
  have h : Same (k.procs c) { k.procs c with name := name } :=
    ⟨Iff.rfl, rfl, rfl, rfl, rfl, rfl, rfl, rfl, rfl, rfl⟩
  exact h.setProc i

theorem setArgs_same (argc : Int) (argvPtr : Nat) (i : Fin procsMax) :
    Same (k.procs i) ((k.setProc c { k.procs c with argc := argc, argvPtr := argvPtr }).procs i) := by
  have h : Same (k.procs c) { k.procs c with argc := argc, argvPtr := argvPtr } :=
    ⟨Iff.rfl, rfl, rfl, rfl, rfl, rfl, rfl, rfl, rfl, rfl⟩
  exact h.setProc i

/-- `sys_exec` of a program up to the `yield`: process `c` has a new address space, and those of the others
are as they were. -/
structure Execed (L : Layout) (k : Kernel) (F : List Nat) (c : Fin procsMax) (k' : Kernel) (F' : List Nat) :
    Prop where
  valid : k'.Valid L F'
  turn : Turn L k F c k' F'
  spares : Spares L k F c k'
  others : ∀ i, i ≠ c → k'.procs i = k.procs i
  live : k'.Live c
  tf : (k'.procs c).tf = L.tfStackFrame c
  heapEnd : (k'.procs c).heapEnd = 0x3001000
  userStackTop : (k'.procs c).userStackTop = 0x1020000
  current : k'.currentProc = some c
  active : k'.satp = (k'.procs c).pageTable
  idleProc : k'.idleProc = k.idleProc
  identity : Identity L k'.phys.mem (k'.procs c).pageTable
  user : ∀ v pg, userFrame (leafAt k'.phys.mem (k'.procs c).pageTable v) = some pg → InitPage v
  data : ∀ v, DataPage 0x1020000 0x1010000 0x3000000 v →
    DataLeaf (leafAt k'.phys.mem (k'.procs c).pageTable v)

namespace Execed

variable {k₁ k₂ : Kernel} {F₁ : List Nat}

theorem pageTable (h : Execed L k F c k₁ F₁) : (k₁.procs c).pageTable ≠ 0 := h.valid.full c h.live

/-- A step that keeps the new space and the other processes. -/
theorem congr {F₂ : List Nat} (h : Execed L k F c k₁ F₁) (hv : k₂.Valid L F₂)
    (ht : Turn L k F c k₂ F₂) (hs : Spares L k F c k₂) (hsame : ∀ i, Same (k₁.procs i) (k₂.procs i))
    (hothers : ∀ i, i ≠ c → k₂.procs i = k₁.procs i)
    (hcur : k₂.currentProc = k₁.currentProc) (hsatp : k₂.satp = k₁.satp) (hidle : k₂.idleProc = k₁.idleProc)
    (hleaf : leafAt k₂.phys.mem (k₁.procs c).pageTable = leafAt k₁.phys.mem (k₁.procs c).pageTable) :
    Execed L k F c k₂ F₂ where
  valid := hv
  turn := ht
  spares := hs
  others i hi := (hothers i hi).trans (h.others i hi)
  live := (hsame c).live.mpr h.live
  tf := (hsame c).tf.trans h.tf
  heapEnd := (hsame c).heapEnd.trans h.heapEnd
  userStackTop := (hsame c).userStackTop.trans h.userStackTop
  current := hcur.trans h.current
  active := by rw [hsatp, (hsame c).pageTable, h.active]
  idleProc := hidle.trans h.idleProc
  identity := by
    rw [(hsame c).pageTable]
    exact h.identity.congr hleaf
  user := by
    rw [(hsame c).pageTable, hleaf]
    exact h.user
  data := by
    rw [(hsame c).pageTable, hleaf]
    exact h.data

/-- The arguments go to the stack. -/
theorem userWrites (h : Execed L k F c k₁ F₁) (hw : UserWrites k₁ c k₂) :
    Execed L k F c k₂ F₁ := by
  have hi := h.valid.toInv
  have hp := hw.procs
  refine h.congr (hw.valid h.valid h.live)
    (h.turn.grows (hw.alone hi h.live h.pageTable) hi (hw.grows (o := 0) hi h.live h.pageTable))
    (h.spares.trans h.turn fun a ha _ => hw.mem a fun ⟨v, hv⟩ => ha ?_) (fun i => hp ▸ .refl _) (fun i _ => congrFun hp i)
    (by rw [hw.state]) (by rw [hw.state]) (by rw [hw.state])
    (hw.leafAt hi h.live h.pageTable h.live h.pageTable)
  obtain ⟨q, hq⟩ := holds_space (L := L) h.live h.pageTable (inSpace_of_frame hv)
  exact .inr ⟨_, by simp, hq⟩

/-- The page for the arguments goes back, and the trap frame is made. -/
theorem execFrame {argvBuf : Nat} (h : Execed L k F c k₁ F₁) (hsp : Spare L k₁ F₁ argvBuf)
    (hav : Avail L k.phys F argvBuf) (sp : Nat) : (∃ F₂, Execed L k F c (k₁.execFrame L c argvBuf sp) F₂) ∧
      ∀ a, InSpace k₁.phys.mem (k₁.procs c).pageTable (pageOf a) →
        (k₁.execFrame L c argvBuf sp).phys.mem a = k₁.phys.mem a := by
  have hi := h.valid.toInv
  obtain ⟨F₂, hi₂, ht₂, hmem⟩ := execFrame_spec sp h.turn hi hsp hav h.tf
  have hlast : ∀ i, k₁.Live i → (k₁.procs i).pageTable ≠ 0 → ∀ a,
      InSpace k₁.phys.mem (k₁.procs i).pageTable (pageOf a) →
        (k₁.execFrame L c argvBuf sp).phys.mem a = k₁.phys.mem a := by
    intro i hli hpti a ha
    refine hmem a (fun he => ?_) fun hx => ?_
    · obtain ⟨q, hq⟩ := holds_space (L := L) hli hpti ha
      exact hsp.free i _ (he ▸ hq)
    · have h1 := (((hi.proc i hli).spaceOk hpti).page _ ha).1.ge
      have h2 := pageOf_lt (Nat.lt_of_lt_of_le hx.2 (L.tfTop_le c))
      omega
  have hv : (k₁.execFrame L c argvBuf sp).Valid L F₂ :=
    { toInv := hi₂
      full := h.valid.full
      stack := h.valid.stack
      idle := h.valid.idle
      globals := ⟨h.valid.globals.stackTop, h.valid.globals.stackBottom, h.valid.globals.heapStart,
        h.valid.globals.heapEnd⟩ }
  have hs : Spares L k F c (k₁.execFrame L c argvBuf sp) := fun a ha hx =>
    (hmem a (fun he => ha (.inl (he ▸ hav))) hx).trans (h.spares a ha hx)
  exact ⟨⟨F₂, h.congr hv ht₂ hs (fun i => .refl _) (fun _ _ => rfl) rfl rfl rfl
    (leafAt_congr (fun a ha => hlast c h.live h.pageTable a ha.inSpace) fun pg =>
      ((hi.proc c h.live).spaceOk h.pageTable).tables.aligned)⟩, hlast c h.live h.pageTable⟩

theorem setArgs (h : Execed L k F c k₁ F₁) (argc : Int) (argvPtr : Nat) :
    Execed L k F c (k₁.setProc c { k₁.procs c with argc := argc, argvPtr := argvPtr }) F₁ := by
  have hs := setArgs_same (k := k₁) (c := c) argc argvPtr
  have hg := h.valid.globals
  exact h.congr (h.valid.relabel rfl hs ⟨hg.stackTop, hg.stackBottom, hg.heapStart, hg.heapEnd⟩)
    (h.turn.relabel rfl hs) h.spares hs (fun i hi => setProc_procs_of_ne hi) rfl rfl rfl rfl

end Execed

/-- The new program with its name, before it gets its arguments. -/
theorem execElf_load (buf : List UInt8) {argvBuf : Nat} {k₁ k₂ k₃ : Kernel} {ep : Fin procsMax} (hk : k.Valid L F)
    (hl : k.Live c) (he : elf.Linked) {F₁ : List Nat} (hi1 : k₁.Inv L F₁) (ht1 : Turn L k F c k₁ F₁)
    (hs1 : Spares L k F c k₁) (hsp1 : Spare L k₁ F₁ argvBuf) (hst1 : k₁ = { k with phys := k₁.phys })
    (hc : k.currentProc = some c)
    (h2 : Kernel.processFreeUserspace { k₁ with satp := k₁.kernelPagetable }
      (Kernel.cur { k₁ with satp := k₁.kernelPagetable }) = .ok k₂)
    (h3 : k₂.extractFlatBinaryFromElf L elf false = .ok (ep, k₃)) :
    ep = c ∧ Spares L k₁ F₁ c (k₃.activate L c (stripElfExtension buf)) ∧
      ∃ F₃, Execed L k F c (k₃.activate L c (stripElfExtension buf)) F₃ ∧
        Spare L (k₃.activate L c (stripElfExtension buf)) F₃ argvBuf := by
  have hpt := hk.full c hl
  have hp1 : k₁.procs = k.procs := by rw [hst1]
  have hc1 : k₁.currentProc = some c := by
    rw [hst1]
    exact hc
  have hiB : Kernel.Inv L { k₁ with satp := k₁.kernelPagetable } F₁ := hi1.relabel rfl fun _ => .refl _
  have htB : Turn L k₁ F₁ c { k₁ with satp := k₁.kernelPagetable } F₁ :=
    Turn.refl.relabel rfl fun _ => .refl _
  have hcB : Kernel.cur { k₁ with satp := k₁.kernelPagetable } = c := cur_eq hc1
  rw [hcB] at h2
  have hlB : Live { k₁ with satp := k₁.kernelPagetable } c := by
    rw [Live, hp1]
    exact hl
  -- the address space goes back
  obtain ⟨F₂, hi2, ht2, hs2, hst2⟩ := processFree_spec hiB hlB (by rw [hp1]; exact hpt) h2
  have hp2 : k₂.procs = Function.update k.procs c { k.procs c with pageTable := 0 } := by
    rw [hst2, ← hp1]
    rfl
  have hc2 : k₂.currentProc = some c := by
    rw [hst2]
    exact hc1
  have hl2 : k₂.Live c := by
    rw [Live, hp2, Function.update_self]
    exact hl
  -- a new program comes
  obtain ⟨hep, F₃, hload⟩ := load_spec hi2 hc2 hl2 he h3
  obtain ⟨pt, flat, n, hpt0, hp3⟩ := hload.record
  rw [hp2, Function.update_idem, Function.update_self] at hp3
  have hsB : Spares L k₁ F₁ c { k₁ with satp := k₁.kernelPagetable } := .of_mem rfl
  have hs13 : Spares L k₁ F₁ c k₃ := (hsB.trans htB hs2).trans (htB.trans ht2)
    (.of_grows hload.grows fun _ h => h.elim)
  have hs3 : Spares L k F c k₃ := hs1.trans ht1 hs13
  have hidle : k₃.idleProc = k.idleProc := by
    rw [hload.idleProc, hst2, hst1]
    rfl
  have ht3 := (htB.trans ht2).trans hload.turn
  have hg := hload.globals
  have hself : k₃.procs c = execRecord L c { k.procs c with pageTable := 0 } pt flat n := by
    rw [hp3, Function.update_self]
  have hpA : (k₃.activate L c (stripElfExtension buf)).procs = Function.update k.procs c
      { execRecord L c { k.procs c with pageTable := 0 } pt flat n with name := stripElfExtension buf } := by
    show Function.update k₃.procs c _ = _
    rw [hself, hp3, Function.update_idem]
  have hA : (k₃.activate L c (stripElfExtension buf)).procs c =
      { execRecord L c { k.procs c with pageTable := 0 } pt flat n with name := stripElfExtension buf } := by
    rw [hpA, Function.update_self]
  have hsameA := activate_same (L := L) (k := k₃) (c := c) (stripElfExtension buf)
  have hactive : (k₃.activate L c (stripElfExtension buf)).satp =
      ((k₃.activate L c (stripElfExtension buf)).procs c).pageTable := rfl
  have hphys : (k₃.activate L c (stripElfExtension buf)).phys = k₃.phys := rfl
  have hcurA : (k₃.activate L c (stripElfExtension buf)).currentProc = some c := hload.currentProc.trans hc2
  have hidleA : (k₃.activate L c (stripElfExtension buf)).idleProc = k.idleProc := hidle
  have hgA : (k₃.activate L c (stripElfExtension buf)).Globals :=
    ⟨hg.stackTop, hg.stackBottom, hg.heapStart, hg.heapEnd⟩
  generalize k₃.activate L c (stripElfExtension buf) = kA at hpA hA hsameA hactive hphys hcurA hidleA hgA ⊢
  have hrel := ht3.relabel hphys hsameA
  refine ⟨hep, fun a ha hx => by rw [hphys, hs13 a ha hx], F₃,
    ⟨?_, ht1.trans hrel, ?_, fun i hi => ?_, ?_, ?_, ?_, ?_, hcurA, hactive, hidleA, ?_, ?_, ?_⟩, hsp1.turn hrel⟩
  · refine hk.update (hload.inv.relabel hphys hsameA) hpA (fun _ => hpt0) (fun _ => by simp [execRecord, kernelBase])
      (fun h0 => ?_) hgA
    have hidle := hk.idle.2
    rw [← h0] at hidle
    exact ⟨by simp [execRecord], hidle⟩
  · exact fun a ha hx => by rw [hphys, hs3 a ha hx]
  · rw [hpA, Function.update_of_ne hi]
  · rw [Live, hA]
    simp [execRecord]
  · rw [hA]
    rfl
  · rw [hA]
    rfl
  · rw [hA]
    rfl
  · rw [hphys, (hsameA c).pageTable]
    exact hload.identity
  · rw [hphys, (hsameA c).pageTable]
    exact hload.user
  · rw [hphys, (hsameA c).pageTable]
    exact hload.data

/-- `sys_exec` of a program up to its arguments: the page for their copy, the process, its stack pointer and its
`argv`. -/
def execArguments (L : Layout) (k : Kernel) (elf : Elf) (prognameBuf : List UInt8) (argv : Nat) (argc : Int) :
    Except Halt (Nat × Fin procsMax × Nat × Nat × Kernel) := do
  let (argvBuf, s) ← k.phys.allocPages L k.owner 1
  let k ← { k with phys := s }.copyArgv argvBuf argv argc
  let k ← { k with satp := k.kernelPagetable }.processFreeUserspace k.cur
  let (ep, k) ← k.extractFlatBinaryFromElf L elf false
  let (sp, argvPtr, k) ← (k.activate L ep (stripElfExtension prognameBuf)).pushArgv L argvBuf argc
  .ok (argvBuf, ep, sp, argvPtr, k)

/-- The rest of it, up to the `yield`. -/
def startProgram (L : Layout) (k : Kernel) (ep : Fin procsMax) (argvBuf sp argvPtr : Nat) (argc : Int) : Kernel :=
  let k := k.execFrame L ep argvBuf sp
  k.setProc k.cur { k.procs k.cur with argc := argc, argvPtr := argvPtr }

theorem execElf_eq {buf : List UInt8} {argv : Nat} {argc : Int} : k.execElf L elf buf argv argc = (do
    let (argvBuf, ep, sp, argvPtr, k) ← k.execArguments L elf buf argv argc
    let (k, switched) := (k.startProgram L ep argvBuf sp argvPtr argc).yield L
    .ok (if switched then .switched else .value 0, k)) := by
  simp only [execArguments, bind_assoc]
  rfl

/-- What `execArguments` does: the arguments are copied, a new address space is made and they go to its stack. -/
structure Argumented (L : Layout) (k : Kernel) (F : List Nat) (c : Fin procsMax) (argvBuf argv : Nat) (argc : Int)
    (kB kA : Kernel) (F₁ : List Nat) : Prop where
  taken : Avail L k.phys F argvBuf
  copied : ∃ s, k.phys.allocPages L k.owner 1 = .ok (argvBuf, s) ∧ copyArgv { k with phys := s } argvBuf argv argc = .ok kB
  execed : Execed L k F c kA F₁
  spare : Spare L kA F₁ argvBuf
  rows : ∀ a, pageOf a = argvBuf → kA.phys.mem a = kB.phys.mem a

theorem execArguments_spec {buf : List UInt8} {argvBuf ep argv sp argvPtr} {argc : Int} (hk : k.Valid L F)
    (hc : k.currentProc = some c) (hl : k.Live c) (he : elf.Linked)
    (h : k.execArguments L elf buf argv argc = .ok (argvBuf, ep, sp, argvPtr, k')) :
    ep = c ∧ ∃ kB kA F₁, Argumented L k F c argvBuf argv argc kB kA F₁ ∧
      kA.pushArgv L argvBuf argc = .ok (sp, argvPtr, k') := by
  unfold execArguments at h
  simp only [bind_eq_ok, Prod.exists, Except.ok.injEq, Prod.mk.injEq] at h
  obtain ⟨argvBuf', s, hal, k₁, h1, k₂, h2, ep', k₃, h3, sp', argvPtr', k₄', h4, rfl, rfl, rfl, rfl, rfl⟩ := h
  obtain ⟨F₁, hi1, ht1, hs1, hsp1, hav, hst1⟩ := argvBuf_spec (c := c) hk.toInv hal (pushArgv_argc h4) h1
  have hcur1 : k₁.cur = Kernel.cur { k₁ with satp := k₁.kernelPagetable } := rfl
  rw [hcur1] at h2
  obtain ⟨rfl, hs, F₃, heA, hspA⟩ := execElf_load buf hk hl he hi1 ht1 hs1 hsp1 hst1 hc h2 h3
  refine ⟨rfl, k₁, _, F₃, ⟨hav, ⟨s, hal, h1⟩, heA, hspA, fun a ha => hs a (fun hlo => ?_) fun hx => ?_⟩, h4⟩
  · rw [ha] at hlo
    rcases hlo with hlo | ⟨r, -, hr⟩
    · exact hsp1.taken hlo
    · exact hsp1.free _ _ hr
  · have hge := hsp1.page.ge
    have := pageOf_lt (Nat.lt_of_lt_of_le hx.2 (L.tfTop_le _))
    omega

namespace Argumented

variable {argvBuf argv sp argvPtr : Nat} {argc : Int} {kB kA : Kernel} {F₁ : List Nat}

/-- The arguments on the stack, and the rest up to the `yield`. -/
theorem startProgram (h : Argumented L k F c argvBuf argv argc kB kA F₁)
    (hpush : kA.pushArgv L argvBuf argc = .ok (sp, argvPtr, k')) :
    Execed L k F c k' F₁ ∧ (∃ F₂, Execed L k F c (k'.startProgram L c argvBuf sp argvPtr argc) F₂) ∧
      ∀ a, InSpace k'.phys.mem (k'.procs c).pageTable (pageOf a) →
        (k'.startProgram L c argvBuf sp argvPtr argc).phys.mem a = k'.phys.mem a := by
  have heA := h.execed
  have hiA := heA.valid.toInv
  have hw := pushArgv_spec hiA heA.live heA.pageTable heA.active heA.valid.globals hpush
  have he4 := heA.userWrites hw
  have ht4 : Turn L kA F₁ c k' F₁ := Turn.refl.grows (hw.alone hiA heA.live heA.pageTable) hiA
    (hw.grows (o := 0) hiA heA.live heA.pageTable)
  obtain ⟨⟨F₅, he5⟩, hmem⟩ := he4.execFrame (h.spare.turn ht4) h.taken sp
  have hstart : k'.startProgram L c argvBuf sp argvPtr argc = (k'.execFrame L c argvBuf sp).setProc c
      { (k'.execFrame L c argvBuf sp).procs c with argc := argc, argvPtr := argvPtr } := by
    unfold Kernel.startProgram
    dsimp only
    rw [cur_eq he5.current]
  rw [hstart]
  exact ⟨he4, ⟨F₅, he5.setArgs argc argvPtr⟩, hmem⟩

end Argumented

theorem execElf_steps {buf : List UInt8} {argv : Nat} {argc : Int} (hk : k.Valid L F)
    (hc : k.currentProc = some c) (hl : k.Live c) (he : elf.Linked)
    (h : k.execElf L elf buf argv argc = .ok (ret, k')) :
    ∃ argvBuf sp argvPtr k₁ F₁ F₂, k.execArguments L elf buf argv argc = .ok (argvBuf, c, sp, argvPtr, k₁) ∧
      Execed L k F c k₁ F₁ ∧ Execed L k F c (k₁.startProgram L c argvBuf sp argvPtr argc) F₂ ∧
      k' = ((k₁.startProgram L c argvBuf sp argvPtr argc).yield L).1 ∧
      ret = if ((k₁.startProgram L c argvBuf sp argvPtr argc).yield L).2 then .switched else .value 0 := by
  rw [execElf_eq] at h
  simp only [bind_eq_ok, Prod.exists, Except.ok.injEq, Prod.mk.injEq] at h
  obtain ⟨argvBuf, ep, sp, argvPtr, k₄, harg, hret, hk'⟩ := h
  obtain ⟨rfl, kB, kA, F₁, hargs, hpush⟩ := execArguments_spec hk hc hl he harg
  obtain ⟨he4, ⟨F₂, hestart⟩, -⟩ := hargs.startProgram hpush
  exact ⟨_, _, _, _, F₁, F₂, harg, he4, hestart, hk'.symm, hret.symm⟩

/-- `sys_exec` finds no program, or the caller gets a new address space and then there is a `yield`. -/
theorem sysExec_cases {fs : Initramfs} {progname argv : Nat} {argc : Int} (hk : k.Valid L F)
    (hc : k.currentProc = some c) (hl : k.Live c) (hfs : ∀ f ∈ fs, f.2.Linked)
    (h : k.sysExec L fs progname argv argc = .ok (ret, k')) :
    (k.tarfsLookup progname fs = .ok none ∧ ret = .value (neg64 1) ∧ k' = k) ∨
      ∃ elf k₁ F₁, k.tarfsLookup progname fs = .ok (some elf) ∧ Execed L k F c k₁ F₁ ∧ k' = (k₁.yield L).1 ∧
        ret = if (k₁.yield L).2 then .switched else .value 0 := by
  unfold sysExec at h
  simp only [bind_eq_ok] at h
  obtain ⟨buf, _, found, hfound, h⟩ := h
  cases found with
  | none =>
      simp only [Except.ok.injEq, Prod.mk.injEq] at h
      exact .inl ⟨hfound, h.1.symm, h.2.symm⟩
  | some elf =>
      obtain ⟨f, hf, rfl⟩ := tarfsLookup_mem hfound
      obtain ⟨_, _, _, _, _, F₂, _, _, he, hk', hret⟩ := execElf_steps hk hc hl (hfs f hf) h
      exact .inr ⟨_, _, F₂, hfound, he, hk', hret⟩

/-- `sys_exec` finds no program, or the caller gets a new one. -/
theorem sysExec_spec {fs : Initramfs} {progname argv : Nat} {argc : Int} (hk : k.Valid L F)
    (hc : k.currentProc = some c) (hl : k.Live c) (hfs : ∀ f ∈ fs, f.2.Linked)
    (h : k.sysExec L fs progname argv argc = .ok (ret, k')) :
    ∃ F', k'.Valid L F' ∧ Turn L k F c k' F' ∧
      (ret = .value (neg64 1) ∧ k' = k ∨ (k'.procs c).tf = L.tfStackFrame c) := by
  rcases sysExec_cases hk hc hl hfs h with ⟨-, rfl, rfl⟩ | ⟨elf, k₁, F₁, -, he, rfl, -⟩
  · exact ⟨F, hk, .refl, .inl ⟨rfl, rfl⟩⟩
  · refine ⟨F₁, he.valid.yield, he.turn.relabel (yield_phys L _) (yield_same L _), .inr ?_⟩
    rw [(yield_same L _ c).tf, he.tf]

end Kernel

end RiscvOs
