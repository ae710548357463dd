import RiscvOs.Theorems.Registers
import RiscvOs.Theorems.Reclaim

/-!
# What belongs to a process

In every run whose calls are careful, no page is free and in use, and none is in use by two processes; and while a
process does not run, the others and the kernel leave it its memory, its registers and its record.
-/

namespace RiscvOs

open ByteMem Kernel Lts LinkedList

variable {L : Layout} {fs : Initramfs} {k k' : Kernel} {F : List Nat} {i j : Fin procsMax} {s s' s₀ : Machine}
  {l l₀ : List Trap} {pg va mask : Nat} {v : Vpn}

/-! ## Pages -/

/-- The page is a table or a frame of the process, a page of its image, or one that holds its trap frame. -/
def Kernel.InUse (k : Kernel) (i : Fin procsMax) (pg : Nat) : Prop :=
  k.Live i ∧ (IsTable k.phys.mem (k.procs i).pageTable pg ∨
    (∃ v, userFrame (leafAt k.phys.mem (k.procs i).pageTable v) = some pg) ∨
    (∃ n, (k.procs i).imagePa ≠ 0 ∧ n < (k.procs i).imageNpages ∧ pg = (k.procs i).imagePa + n * 4096) ∨
    ∃ a, (k.procs i).tf ≤ a ∧ a < (k.procs i).tf + frameSize ∧ pg = pageOf a)

/-- What the process reaches in its frames is data of its own. -/
structure Kernel.PlainFrame (L : Layout) (k : Kernel) (i : Fin procsMax) (v : Vpn) (pg : Nat) : Prop where
  freeRam : L.freeRam ≤ pg
  once : ∀ v', userFrame (leafAt k.phys.mem (k.procs i).pageTable v') = some pg → v' = v
  table : ¬IsTable k.phys.mem (k.procs i).pageTable pg
  image : ∀ n < (k.procs i).imageNpages, (k.procs i).imagePa ≠ 0 → pg ≠ (k.procs i).imagePa + n * 4096
  trapFrame : ∀ a, (k.procs i).tf ≤ a → a < (k.procs i).tf + frameSize → pg ≠ pageOf a

/-- The free list ends, holds no page twice and is counted; no page in use is free, and none is in use twice, by two
processes or by one. -/
structure Kernel.PagesOwned (L : Layout) (k : Kernel) : Prop where
  list : ∃ F, Linked (load64 k.phys.mem) 0 k.phys.freeList F ∧ F.Nodup ∧ k.phys.gFreePages = F.length
  free : ∀ pg i, k.phys.Free L pg → ¬k.InUse i pg
  apart : ∀ pg i j, k.InUse i pg → k.InUse j pg → i = j
  frames : ∀ i v pg, k.Live i → userFrame (leafAt k.phys.mem (k.procs i).pageTable v) = some pg →
    k.PlainFrame L i v pg

/-- What is in use is held, or it is a page of the kernel stack. -/
theorem Kernel.Valid.inUse_cases (hv : k.Valid L F) (h : k.InUse i pg) :
    (∃ r, k.Holds L i r pg) ∨ ∃ a, L.tfStackFrame i ≤ a ∧ a < L.tfStackFrame i + frameSize ∧ pg = pageOf a := by
  obtain ⟨hl, hu⟩ := h
  have hspace : InSpace k.phys.mem (k.procs i).pageTable pg → ∃ r, k.Holds L i r pg := by
    rintro ⟨q, hq⟩
    exact ⟨.space q, hl, (Proc.holds_space (hv.full i hl) q).trans hq⟩
  rcases hu with ht | ⟨v, hf⟩ | ⟨n, hne, hn, rfl⟩ | ⟨a, h1, h2, rfl⟩
  · exact .inl (hspace ht.inSpace)
  · exact .inl (hspace (inSpace_of_frame hf))
  · exact .inl ⟨.image n, hl, if_pos ⟨hne, hn⟩⟩
  · rcases (hv.proc i hl).tf_cases with he | ⟨hh, hp⟩
    · rw [he] at h1 h2
      exact .inr ⟨a, h1, h2, rfl⟩
    · have ho : pageOf a = (k.procs i).tf := (pageOf_eq_iff hp.aligned).mpr ⟨h1, by unfold frameSize at h2; omega⟩
      rw [ho]
      exact .inl ⟨.tf, hl, hh⟩

/-- The frames on the kernel stacks of two slots lie in different pages. -/
theorem tfStackFrame_page {a b : Nat} (h1 : L.tfStackFrame i ≤ a) (h2 : a < L.tfStackFrame i + frameSize)
    (h3 : L.tfStackFrame j ≤ b) (h4 : b < L.tfStackFrame j + frameSize) (h : pageOf a = pageOf b) : i = j := by
  refine Fin.ext (Classical.byContradiction fun hne => ?_)
  unfold pageOf at h
  simp only [Layout.tfStackFrame, Layout.tfTop, Layout.procAddr, procSize, tfStackEnd, frameSize] at *
  omega

/-- The pages of the kernel stacks lie below those of the allocator. -/
theorem not_isPage_of_stack {a : Nat} (ha : a < L.tfStackFrame i + frameSize) : ¬IsPage L (pageOf a) := fun hp => by
  have h1 := pageOf_lt (Nat.lt_of_lt_of_le ha (tfStackFrame_lt L i))
  have h2 := hp.ge
  omega

theorem Kernel.Valid.plainFrame (hv : k.Valid L F) (hl : k.Live i)
    (hf : userFrame (leafAt k.phys.mem (k.procs i).pageTable v) = some pg) : k.PlainFrame L i v pg := by
  have hp := hv.proc i hl
  have hs := hp.spaceOk (hv.full i hl)
  have hpage := (hs.page pg (inSpace_of_frame hf)).1
  obtain ⟨q, hq⟩ := inSpace_of_frame hf
  have hrole : (k.procs i).holds L k.phys.mem i (.space q) = some pg :=
    (Proc.holds_space (hv.full i hl) q).trans hq
  refine ⟨hpage.ge, fun v' hv' => hs.frame_inj hv' hf, hs.frame_not_table hf, fun n hn hne he => ?_,
    fun a h1 h2 he => ?_⟩
  · have himage : (k.procs i).holds L k.phys.mem i (.image n) = some pg := by
      rw [he]
      exact if_pos ⟨hne, hn⟩
    exact absurd (hp.inj _ _ pg hrole himage) (by simp)
  · rcases hp.tf_cases with htf | ⟨hh, htf⟩
    · rw [htf] at h2
      exact not_isPage_of_stack h2 (he ▸ hpage)
    · have ho : pageOf a = (k.procs i).tf := (pageOf_eq_iff htf.aligned).mpr ⟨h1, by unfold frameSize at h2; omega⟩
      rw [← ho, ← he] at hh
      exact absurd (hp.inj _ _ pg hrole hh) (by simp)

theorem Kernel.Valid.pagesOwned (hv : k.Valid L F) : k.PagesOwned L := by
  refine ⟨⟨F, hv.ok.chain, hv.ok.chain.nodup, hv.ok.count⟩, fun pg i hfree hu => ?_, fun pg i j hi hj => ?_,
    fun i v pg hl hf => hv.plainFrame hl hf⟩
  · have hav := hv.ok.free_iff.mp hfree
    rcases hv.inUse_cases hu with ⟨r, hl, hr⟩ | ⟨a, _, h2, rfl⟩
    · exact ((hv.proc i hl).page r pg hr).2 hav
    · exact not_isPage_of_stack h2 (hv.ok.isPage hav)
  · rcases hv.inUse_cases hi with ⟨r, hr⟩ | ⟨a, h1, h2, rfl⟩
    · rcases hv.inUse_cases hj with ⟨r', hr'⟩ | ⟨b, _, h4, rfl⟩
      · exact hv.apart i j r r' pg hr hr'
      · exact absurd ((hv.proc i hr.1).page r _ hr.2).1 (not_isPage_of_stack h4)
    · rcases hv.inUse_cases hj with ⟨r', hr'⟩ | ⟨b, h3, h4, he⟩
      · exact absurd ((hv.proc j hr'.1).page r' _ hr'.2).1 (not_isPage_of_stack h2)
      · exact tfStackFrame_page h1 h2 h3 h4 he

namespace Machine

/-- Process `i` is not the one that traps, and it is not freed. -/
def AwayStep (L : Layout) (fs : Initramfs) (i : Fin procsMax) (s : Machine) (t : Trap) (s' : Machine) : Prop :=
  s.CarefulStep L fs t s' ∧ s.kernel.cur ≠ i ∧ s'.kernel.Live i

/-- What an away process finds when it comes back. -/
structure Untouched (k k' : Kernel) (i : Fin procsMax) : Prop where
  record : ∃ st msg, k'.procs i = { k.procs i with state := st, inbox := msg }
  frame : loadFrame k'.phys.mem (k'.procs i).tf = loadFrame k.phys.mem (k.procs i).tf
  /-- every byte that it can see -/
  view : ∀ va, userView k'.phys.mem (k'.procs i).pageTable va = userView k.phys.mem (k.procs i).pageTable va
  /-- every right that it has on a page, and the frame behind it -/
  rights : ∀ va mask, Phys.translate k'.phys.mem (k'.procs i).pageTable va mask =
    Phys.translate k.phys.mem (k.procs i).pageTable va mask

theorem untouched_of_kept (hs : SpaceOk L k.phys F (k.procs i).pageTable) (h : Kept k k' i) : Untouched k k' i := by
  have hagree : Agree (k.procs i).pageTable k.phys.mem k'.phys.mem := h.space
  refine ⟨h.record, h.loadFrame, fun va => ?_, fun va mask => ?_⟩
  · rw [h.pageTable]
    exact hagree.userView hs va
  · have hleaf : leafAt k'.phys.mem (k.procs i).pageTable = leafAt k.phys.mem (k.procs i).pageTable :=
      leafAt_congr (fun a ha => h.space a ha.inSpace) fun _ => hs.tables.aligned
    unfold Phys.translate
    rw [h.pageTable, leafPte_eq, leafPte_eq, hleaf]

/-- What one step of the others keeps, all of them keep. -/
theorem awayRun_kept (hfs : ∀ f ∈ fs, f.2.Linked) (hr : ∃ F c, Running L s.kernel F c) (hl : s.kernel.Live i)
    (h : Run (AwayStep L fs i) s l s') : Kept s.kernel s'.kernel i := by
  induction h with
  | nil => exact .refl hl
  | cons hs _ ih =>
      obtain ⟨F, c, hr⟩ := hr
      obtain ⟨hstep, hne, hl₁⟩ := hs
      have hi : i ≠ c := fun he => hne (by rw [he, hr.cur])
      have hserved := hstep.1.served hfs hr hstep.2
      exact (hserved.others i hi hl hl₁).trans (ih hserved.running hl₁) (hr.proc i hl) (hr.full i hl)

end Machine

end RiscvOs
