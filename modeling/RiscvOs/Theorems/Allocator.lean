import RiscvOs.Lib.Run
import RiscvOs.Lemmas.Exec

/-!
# Runs of the page allocator

Callers allocate, free pages they hold and write to pages they hold, in any order. A `Pool` carries, next
to the state of `page.c`, the pages that are out and all the pages that ever were.
-/

namespace RiscvOs

open ByteMem LinkedList Lts

/-- The `n` pages from `pa` on. -/
def block (pa n : Nat) : Finset Nat := (Finset.range n).image fun i => pa + i * 4096

structure Pool where
  phys : Phys
  /-- allocated and not freed since -/
  outstanding : Finset Nat
  /-- every page ever handed out -/
  handed : Finset Nat

/-- A call of the allocator, or a store by a caller. -/
inductive PoolCall
  /-- `alloc_pages(n)`, which returned `pa` -/
  | alloc (owner n pa : Nat)
  | free (pa : Nat)
  | freeRange (pa n : Nat)
  | write (a : Nat) (v : UInt8)
  deriving Repr, DecidableEq

/-- The state of `page.c` and `alloc-tracker.c` at boot. -/
def Phys.boot (L : Layout) (m : Mem) : Phys where
  mem := m
  freeList := 0
  nextPaddr := L.freeRam
  gFreePages := 0
  allocTable := fun _ => {}
  allocTableCount := 0

def Pool.boot (L : Layout) (m : Mem) : Pool := ⟨Phys.boot L m, ∅, ∅⟩

inductive PoolStep (L : Layout) : Pool → PoolCall → Pool → Prop
  | alloc {p : Pool} {owner n pa : Nat} {s : Phys} : 0 < n → p.phys.nextPaddr + n * 4096 < 2 ^ 64 →
      p.phys.allocPages L owner n = .ok (pa, s) →
      PoolStep L p (.alloc owner n pa) ⟨s, p.outstanding ∪ block pa n, p.handed ∪ block pa n⟩
  | free {p : Pool} {pa : Nat} : pa ∈ p.outstanding →
      PoolStep L p (.free pa) ⟨p.phys.freePage pa, p.outstanding.erase pa, p.handed⟩
  | freeRange {p : Pool} {pa n : Nat} : block pa n ⊆ p.outstanding →
      PoolStep L p (.freeRange pa n)
        ⟨p.phys.freePagesRange pa n, p.outstanding \ block pa n, p.handed⟩
  | write {p : Pool} {a : Nat} {v : UInt8} : pageOf a ∈ p.outstanding →
      PoolStep L p (.write a v)
        { p with phys := { p.phys with mem := Function.update p.phys.mem a v } }

/-- Two pages without a common byte. -/
def Apart (pg pg' : Nat) : Prop := pg + 4096 ≤ pg' ∨ pg' + 4096 ≤ pg

/-- The chain from `free_list` visits the pages `F` and ends in 0, and with the pages that are out it
accounts for every page ever handed out. -/
structure ChainOk (L : Layout) (p : Pool) (F : List Nat) : Prop where
  chain : Linked (load64 p.phys.mem) 0 p.phys.freeList F
  count : F.length = p.phys.gFreePages
  distinct : F.Nodup
  aligned : ∀ pg ∈ F, pg % 4096 = 0
  inside : ∀ pg ∈ F, L.freeRam ≤ pg ∧ pg + 4096 ≤ p.phys.nextPaddr
  apart : ∀ pg ∈ F, ∀ o ∈ p.outstanding, Apart pg o
  once : ∀ pg ∈ p.handed, (pg ∈ p.outstanding ∧ F.count pg = 0) ∨ (pg ∉ p.outstanding ∧ F.count pg = 1)

/-- The invariant of a run. -/
structure Pool.Inv (L : Layout) (p : Pool) (F : List Nat) : Prop where
  ok : AllocOk L p.phys F
  track : TrackOk L p.phys F
  out : ∀ pg ∈ p.outstanding, IsPage L pg ∧ ¬Avail L p.phys F pg
  handed : ∀ pg ∈ p.handed, pg ∈ p.outstanding ∨ pg ∈ F

variable {L : Layout} {p p' : Pool} {F : List Nat} {c : PoolCall} {l : List PoolCall} {m : Mem}
  {pa n pg pg' : Nat}

theorem mem_block : pg ∈ block pa n ↔ InBlock pa n pg := by
  simp only [block, Finset.mem_image, Finset.mem_range, InBlock]
  constructor
  · rintro ⟨i, hi, rfl⟩
    exact ⟨i, hi, rfl⟩
  · rintro ⟨i, hi, rfl⟩
    exact ⟨i, hi, rfl⟩

theorem IsPage.apart (h : IsPage L pg) (h' : IsPage L pg') (hne : pg ≠ pg') : Apart pg pg' := by
  have := h.aligned
  have := h'.aligned
  unfold Apart
  omega

theorem AllocOk.boot (L : Layout) (m : Mem) : AllocOk L (Phys.boot L m) [] :=
  ⟨rfl, rfl, by simp, L.freeRam_aligned, Nat.le_refl _, Nat.le_of_lt L.freeRam_lt_end⟩

theorem TrackOk.boot (L : Layout) (m : Mem) : TrackOk L (Phys.boot L m) [] :=
  ⟨fun _ h => by simp [Phys.boot] at h, fun _ h => by simp [Phys.boot] at h,
    fun _ _ h => by simp [Phys.boot] at h⟩

theorem Pool.Inv.boot (L : Layout) (m : Mem) : (Pool.boot L m).Inv L [] :=
  ⟨.boot L m, .boot L m, by simp [Pool.boot], by simp [Pool.boot]⟩

theorem Pool.Inv.step (hi : p.Inv L F) (h : PoolStep L p c p') : ∃ F', p'.Inv L F' := by
  cases h with
  | @alloc owner n pa s hn hlt h =>
      obtain ⟨F', hb⟩ := allocPages_block hi.ok hi.track hn hlt h
      refine ⟨F', hb.grows.ok, hb.grows.track, fun pg hpg => ?_, fun pg hpg => ?_⟩
      · rcases Finset.mem_union.mp hpg with hpg | hpg
        · exact ⟨(hi.out pg hpg).1, fun h => (hi.out pg hpg).2 (hb.grows.avail pg h)⟩
        · rw [mem_block] at hpg
          exact ⟨hi.ok.isPage (hb.was pg hpg), fun h => ((hb.avail pg).mp h).2 hpg⟩
      · -- a page that leaves the chain goes out
        by_cases hblk : pg ∈ block pa n
        · exact .inl (Finset.mem_union_right _ hblk)
        rcases hi.handed pg ((Finset.mem_union.mp hpg).resolve_right hblk) with ho | hF
        · exact .inl (Finset.mem_union_left _ ho)
        · rw [mem_block] at hblk
          rcases (hb.avail pg).mpr ⟨.inl hF, hblk⟩ with h | ⟨_, h⟩
          · exact .inr h
          · have := (hi.ok.page pg hF).2
            have := hb.grows.next
            omega
  | @free pa hpa =>
      have hf := Frees.freePage hi.ok hi.track (hi.out pa hpa).1 (hi.out pa hpa).2
      refine ⟨pa :: F, hf.ok, hf.track, fun pg hpg => ?_, fun pg hpg => ?_⟩
      · obtain ⟨hne, hpg⟩ := Finset.mem_erase.mp hpg
        exact ⟨(hi.out pg hpg).1, fun h => ((hf.avail pg).mp h).elim (hi.out pg hpg).2 hne⟩
      · by_cases hpp : pg = pa
        · exact .inr (by simp [hpp])
        rcases hi.handed pg hpg with h | h
        · exact .inl (Finset.mem_erase.mpr ⟨hpp, h⟩)
        · exact .inr (by simp [h])
  | @freeRange pa n hsub =>
      obtain ⟨F', hf⟩ := Frees.freePagesRange hi.ok hi.track fun pg hpg =>
        hi.out pg (hsub (mem_block.mpr hpg))
      refine ⟨F', hf.ok, hf.track, fun pg hpg => ?_, fun pg hpg => ?_⟩
      · obtain ⟨hpg, hne⟩ := Finset.mem_sdiff.mp hpg
        rw [mem_block] at hne
        exact ⟨(hi.out pg hpg).1, fun h => ((hf.avail pg).mp h).elim (hi.out pg hpg).2 hne⟩
      · obtain ⟨l, rfl, hl⟩ := hf.list
        by_cases hblk : pg ∈ block pa n
        · exact .inr (List.mem_append_left _ ((hl pg).mpr (mem_block.mp hblk)))
        rcases hi.handed pg hpg with h | h
        · exact .inl (Finset.mem_sdiff.mpr ⟨h, hblk⟩)
        · exact .inr (List.mem_append_right _ h)
  | @write a v ha =>
      have hg := Grows.write (o := 0) (W := (· = pageOf a)) hi.ok hi.track
        (m := Function.update p.phys.mem a v)
        (fun x hx => Function.update_of_ne (fun h => hx (by rw [h])) _ _)
        (fun pg hpg => hpg ▸ (hi.out _ ha).2)
      exact ⟨F, hg.ok, hg.track, hi.out, hi.handed⟩

theorem Pool.Inv.run (h : Run (PoolStep L) p l p') (hi : p.Inv L F) : ∃ F', p'.Inv L F' :=
  h.invariant (I := fun p => ∃ F, p.Inv L F) (fun _ _ _ ⟨_, hi⟩ hs => hi.step hs) ⟨F, hi⟩

theorem Pool.Inv.chainOk (hi : p.Inv L F) : ChainOk L p F := by
  have hnd := hi.ok.chain.nodup
  refine ⟨hi.ok.chain, hi.ok.count.symm, hnd, fun pg h => (hi.ok.page pg h).1.aligned,
    fun pg h => ⟨(hi.ok.page pg h).1.ge, ?_⟩, fun pg h o ho => ?_, fun pg h => ?_⟩
  · have := hi.ok.page pg h
    have := this.1.aligned
    have := hi.ok.next_aligned
    omega
  · refine (hi.ok.page pg h).1.apart (hi.out o ho).1 fun he => ?_
    exact (hi.out o ho).2 (.inl (he ▸ h))
  · rcases hi.handed pg h with ho | hF
    · exact .inl ⟨ho, List.count_eq_zero.mpr fun hF => (hi.out pg ho).2 (.inl hF)⟩
    · exact .inr ⟨fun ho => (hi.out pg ho).2 (.inl hF), List.count_eq_one_of_mem hnd hF⟩

/-- In every state a run reaches, the free chain is well formed and accounts for the pages handed out, and
a block that the next call hands out lies in free RAM apart from every page that is out. -/
theorem poolRun_safe (h : Run (PoolStep L) (Pool.boot L m) l p) :
    (∃ F, ChainOk L p F) ∧
      ∀ owner n pa p', PoolStep L p (.alloc owner n pa) p' → ∀ pg ∈ block pa n,
        L.freeRam ≤ pg ∧ pg + 4096 ≤ L.freeRamEnd ∧ ∀ o ∈ p.outstanding, Apart pg o := by
  obtain ⟨F, hi⟩ := (Pool.Inv.boot L m).run h
  refine ⟨⟨F, hi.chainOk⟩, fun owner n pa p' hs pg hpg => ?_⟩
  cases hs with
  | alloc hn hlt ha =>
      obtain ⟨F', hb⟩ := allocPages_block hi.ok hi.track hn hlt ha
      have hav := hb.was pg (mem_block.mp hpg)
      have hp := hi.ok.isPage hav
      exact ⟨hp.ge, hp.end_le, fun o ho =>
        hp.apart (hi.out o ho).1 fun he => (hi.out o ho).2 (he ▸ hav)⟩

/-- A block of two pages, of which the first is freed and handed out again. -/
theorem poolRun_safe_reuse :
    ∃ p, Run (PoolStep .kernelMap) (Pool.boot .kernelMap fun _ => 0)
        [.alloc 3 2 0x804cb000, .free 0x804cb000, .alloc 4 1 0x804cb000] p ∧
      (∃ F, ChainOk .kernelMap p F) ∧
      ∀ owner n pa p', PoolStep .kernelMap p (.alloc owner n pa) p' → ∀ pg ∈ block pa n,
        0x804cb000 ≤ pg ∧ pg + 4096 ≤ 0x844cb000 ∧ ∀ o ∈ p.outstanding, Apart pg o := by
  have h1 : ∃ s, PoolStep .kernelMap (Pool.boot .kernelMap fun _ => 0) (.alloc 3 2 0x804cb000)
      ⟨s, ∅ ∪ block 0x804cb000 2, ∅ ∪ block 0x804cb000 2⟩ :=
    ⟨_, .alloc (by decide) (by decide) (Phys.allocPages_of_bump (by simp) (by decide))⟩
  obtain ⟨s, h1⟩ := h1
  have hmem : 0x804cb000 ∈ (∅ : Finset Nat) ∪ block 0x804cb000 2 :=
    Finset.mem_union_right ∅ (mem_block.mpr ⟨0, Nat.two_pos, rfl⟩)
  have h2 := PoolStep.free (L := .kernelMap) (p := ⟨s, _, ∅ ∪ block 0x804cb000 2⟩) hmem
  have h12 := Run.cons h1 (.single h2)
  obtain ⟨F, hi⟩ := (Pool.Inv.boot _ _).run h12
  have hlt := hi.ok.next_lt
  have hfl : (s.freePage 0x804cb000).freeList = 0x804cb000 := by simp [Phys.freePage]
  have ha := Phys.allocPages_of_freeList (L := .kernelMap) (s := s.freePage 0x804cb000) (o := 4)
    (by rw [hfl]; decide)
  rw [hfl] at ha
  have hrun := h12.append (.single (.alloc Nat.one_pos (Nat.lt_trans (Nat.add_lt_add_right hlt _)
    (by decide)) ha))
  exact ⟨_, hrun, poolRun_safe hrun⟩

end RiscvOs
