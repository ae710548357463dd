import RiscvOs.Theorems.Sbrk

/-!
# The right to execute

The loaders and `sys_sbrk` map the stack and the heap of a process without `PTE_X`, but `sys_fork` maps all
pages of the child with it. A run leaves the stacks and the heaps plain exactly when no step of it makes a
child, or moves a break below 0, where the heap comes to cover the pages of the kernel.
-/

namespace RiscvOs

open ByteMem Outcome Kernel Lts

variable {L : Layout} {k k' : Kernel} {F F' : List Nat} {i c : Fin procsMax} {s s' : Machine} {t : Trap}
  {fs : Initramfs} {inc : Int} {va pg : Nat}

namespace Kernel

/-- An address in the user's stack, or in the heap of the process. -/
def StackOrHeap (k : Kernel) (i : Fin procsMax) (va : Nat) : Prop :=
  k.gUserStackBottom ≤ va ∧ va < k.gUserStackTop ∨ k.gUserHeapStart ≤ va ∧ va < (k.procs i).heapEnd

/-- No page there is mapped with `PTE_X`. -/
def PlainMap (k : Kernel) (i : Fin procsMax) : Prop :=
  ∀ va, k.StackOrHeap i va → pteHas (k.map i (vpn va)) pteV → pteHas (k.map i (vpn va)) pteX = false

def NoExecute (k : Kernel) : Prop := ∀ i, k.Live i → k.PlainMap i

theorem stackOrHeap_iff (hg : k.Globals) : k.StackOrHeap i va ↔
    0x1010000 ≤ va ∧ va < 0x1020000 ∨ 0x3000000 ≤ va ∧ va < (k.procs i).heapEnd := by
  unfold StackOrHeap
  rw [hg.stackBottom, hg.stackTop, hg.heapStart]

theorem SameMap.plainMap (hs : SameMap k k' i) (hg : k.Globals) (hg' : k'.Globals) (hl : k.Live i)
    (h : k.PlainMap i) : k'.PlainMap i := by
  intro va hva
  rw [stackOrHeap_iff hg', hs.heapEnd hl] at hva
  rw [hs.map hl]
  exact h va ((stackOrHeap_iff hg).mpr hva)

/-- The loaders map the stack and the first page of the heap without `PTE_X`. -/
theorem plainMap_of_data (hg : k.Globals) (hheap : (k.procs i).heapEnd = 0x3001000)
    (hdata : ∀ v, DataPage 0x1020000 0x1010000 0x3000000 v → DataLeaf (k.map i v)) : k.PlainMap i := by
  intro va hva _
  rw [stackOrHeap_iff hg, hheap] at hva
  refine (hdata (vpn va) ?_).plain
  rcases hva with ⟨h1, h2⟩ | ⟨h1, h2⟩
  · refine .inl ⟨(va - 0x1010000) / 4096, by omega, ?_⟩
    rw [vpn_eq_iff]
    omega
  · refine .inr ?_
    rw [vpn_eq_iff]
    omega

/-- `sys_sbrk` maps the new pages of the heap without `PTE_X`. -/
theorem Grown.plainMap (h : Grown k c inc k') (hg : k.Globals) (hg' : k'.Globals)
    (hle : (k.procs c).heapEnd ≤ 0x7000000) (hle' : (k'.procs c).heapEnd ≤ 0x7000000)
    (h0 : 0 ≤ (k.procs c).heapEnd + inc) (hp : k.PlainMap c) : k'.PlainMap c := by
  intro va hva hvalid
  have hleaves := h.leaves
  rw [← h.heapEnd] at hleaves
  by_cases hpage : 0 < inc ∧ SbrkPage (k.procs c).heapEnd (k'.procs c).heapEnd (vpn va)
  · rw [hleaves.flagged _ hpage pteX (by decide)]
    decide
  rw [hleaves.same _ hpage, vpn_page va] at hvalid ⊢
  refine hp _ ((stackOrHeap_iff hg).mpr ?_) hvalid
  rcases (stackOrHeap_iff hg').mp hva with ⟨h1, h2⟩ | ⟨h1, h2⟩
  · exact .inl ⟨by omega, by omega⟩
  refine .inr ⟨by omega, ?_⟩
  by_cases hpos : 0 < inc
  · exact page_lt_of_not_sbrkPage (by omega) (by omega) h2 fun hs => hpage ⟨hpos, hs⟩
  · have hheap := h.heapEnd
    omega

theorem identityPage_kernelBase (L : Layout) : IdentityPage L kernelBase :=
  ⟨Nat.le_refl _, (L.kernelBase_lt_freeRam).trans (Nat.lt_add_of_pos_right (by decide)), by decide⟩

/-- A break below 0 is above the kernel. -/
theorem not_plainMap_of_wrap (hg : k.Globals) (hid : k.map c (vpn kernelBase) = identityEntry kernelBase)
    (hheap : kernelBase < (k.procs c).heapEnd) : ¬k.PlainMap c := by
  intro hp
  have h := hp kernelBase ((stackOrHeap_iff hg).mpr (.inr ⟨by decide, hheap⟩))
  rw [hid, identityEntry_has (by decide), identityEntry_has (by decide)] at h
  exact absurd (h (by decide)) (by decide)

/-- A child has a stack with code in it. -/
theorem Copied.not_plainMap (h : Copied k c i k') (hv : k.Valid L F) (hl : k.Live c) (hcur : k.cur = c)
    (hg' : k'.Globals) (hle : (k.procs c).heapEnd ≤ 0x7000000) (htop : (k.procs c).userStackTop = 0x1020000)
    (hstack : ∃ pg, UserLeaf (k.map c (vpn 0x1010000)) pg) : ¬k'.PlainMap i := by
  intro hp
  obtain ⟨pg, hpg⟩ := hstack
  have hcode := h.leaf _ (hv.copyPage hl hcur (by unfold kernelBase; omega) (by decide) (by decide)
    (by rw [htop]; omega) hpg)
  obtain ⟨pg', hpg'⟩ := hcode.user
  have hplain := hp 0x1010000 ((stackOrHeap_iff hg').mpr (.inl ⟨by decide, by decide⟩))
    (valid_of_userFrame hpg'.frame)
  rw [hcode.executable] at hplain
  cases hplain

end Kernel

/-! ## Runs -/

/-- The trap makes no child, and it does not move the break below 0. -/
structure KeepsPlain (s : Machine) (t : Trap) : Prop where
  noChild : t.request = some .fork → s.kernel.freeSlot = none
  heapEnd : ∀ inc, t.request = some (.sbrk inc) → 0 ≤ ((s.kernel.procs s.kernel.cur).heapEnd : Int) + inc

theorem keepsPlain_of_request (hfork : t.request ≠ some .fork) (hsbrk : ∀ inc, t.request ≠ some (.sbrk inc)) :
    KeepsPlain s t :=
  ⟨fun h => absurd h hfork, fun inc h => absurd h (hsbrk inc)⟩

/-- The space of a process before there are children. -/
structure PlainSpace (k : Kernel) (i : Fin procsMax) : Prop where
  heap : HeapMapped k i
  plain : k.PlainMap i
  stack : ∃ pg, UserLeaf (k.map i (vpn 0x1010000)) pg
  identity : k.map i (vpn kernelBase) = identityEntry kernelBase

namespace PlainSpace

theorem congr (h : PlainSpace k i) (hg : k.Globals) (hg' : k'.Globals) (hl : k.Live i) (hs : SameMap k k' i) :
    PlainSpace k' i :=
  ⟨hs.heapMapped hl h.heap, hs.plainMap hg hg' hl h.plain, by rw [hs.map hl]; exact h.stack,
    by rw [hs.map hl]; exact h.identity⟩

/-- The space of a new program. -/
theorem fresh (hg : k.Globals) (hheap : (k.procs i).heapEnd = 0x3001000)
    (hdata : ∀ v, DataPage 0x1020000 0x1010000 0x3000000 v → DataLeaf (k.map i v))
    (hid : ∀ pa, IdentityPage L pa → k.map i (vpn pa) = identityEntry pa) : PlainSpace k i :=
  ⟨heapMapped_of_data hheap hdata, plainMap_of_data hg hheap hdata,
    (hdata _ (.inl ⟨0, by decide, rfl⟩)).user, hid _ (identityPage_kernelBase L)⟩

end PlainSpace

/-- A state of a run in which no child has been made. -/
structure Machine.PlainOk (L : Layout) (s : Machine) : Prop where
  running : ∃ F c, Running L s.kernel F c
  space : ∀ i, s.kernel.Live i → PlainSpace s.kernel i
  top : ∀ i, s.kernel.Live i → (s.kernel.procs i).userStackTop = 0x1020000

namespace Machine.PlainOk

theorem noExecute (h : s.PlainOk L) : s.kernel.NoExecute := fun i hl => (h.space i hl).plain

/-- A trap leaves the stacks and the heaps plain exactly when it meets the condition. -/
theorem step (hfs : ∀ f ∈ fs, f.2.Linked) (hs : s.PlainOk L) (hm : t.Maps) (h : s.Step L fs t s') :
    (s'.kernel.NoExecute ↔ KeepsPlain s t) ∧ (s'.kernel.NoExecute → s'.PlainOk L) := by
  obtain ⟨F, c, hr⟩ := hs.running
  obtain ⟨hmap, F', c', hr'⟩ := h.remaps hfs hr hm
  have hg := hr.globals
  have hg' := hr'.globals
  have hcur := hr.cur
  -- the maps stay as they are
  have hsame : (∀ i, SameMap s.kernel s'.kernel i) → s'.PlainOk L := fun he =>
    ⟨⟨F', c', hr'⟩, fun i hl => (hs.space i ((he i).live.mp hl)).congr hg hg' ((he i).live.mp hl) (he i), fun i hl =>
      ((he i).userStackTop ((he i).live.mp hl)).trans (hs.top i ((he i).live.mp hl))⟩
  -- process `j` has a new map
  have hone : ∀ j, (∀ i, i ≠ j → SameMap s.kernel s'.kernel i) → PlainSpace s'.kernel j →
      (s'.kernel.procs j).userStackTop = 0x1020000 → s'.PlainOk L := by
    intro j he hj htop
    refine ⟨⟨F', c', hr'⟩, fun i hl => ?_, fun i hl => ?_⟩ <;> by_cases hij : i = j
    · exact hij ▸ hj
    · have hl' := (he i hij).live.mp hl
      exact (hs.space i hl').congr hg hg' hl' (he i hij)
    · exact hij ▸ htop
    · have hl' := (he i hij).live.mp hl
      exact ((he i hij).userStackTop hl').trans (hs.top i hl')
  have hkeep : s'.PlainOk L → KeepsPlain s t →
      (s'.kernel.NoExecute ↔ KeepsPlain s t) ∧ (s'.kernel.NoExecute → s'.PlainOk L) := fun hok hk =>
    ⟨⟨fun _ => hk, fun _ => hok.noExecute⟩, fun _ => hok⟩
  have hbreak : ¬s'.kernel.NoExecute → ¬KeepsPlain s t →
      (s'.kernel.NoExecute ↔ KeepsPlain s t) ∧ (s'.kernel.NoExecute → s'.PlainOk L) := fun hno hk =>
    ⟨⟨fun h => absurd h hno, fun h => absurd h hk⟩, fun h => absurd h hno⟩
  have hc := hs.space c hr.live
  have hle := hc.heap.le hr.toValid hr.live
  cases hmap with
  | timer hreq he =>
      exact hkeep (hsame he) (keepsPlain_of_request (by simp [hreq]) (by simp [hreq]))
  | forkNone hreq hfull he =>
      exact hkeep (hsame he) ⟨fun _ => hfull, fun inc h => by rw [hreq] at h; cases h⟩
  | execNone hreq _ he =>
      exact hkeep (hsame he) (keepsPlain_of_request (by simp [hreq]) (by simp [hreq]))
  | exec hreq _ hren =>
      exact hkeep (hone c hren.others (.fresh hg' hren.heapEnd hren.data hren.identity) hren.userStackTop)
        (keepsPlain_of_request (by simp [hreq]) (by simp [hreq]))
  | @sbrk inc hreq hgrown _ _ =>
      obtain ⟨hge, hlt⟩ := request_sbrk_lt hreq
      by_cases h0 : 0 ≤ ((s.kernel.procs c).heapEnd : Int) + inc
      · obtain ⟨hm', -⟩ := hgrown.heapMapped hr.toValid hr'.toValid hr.live hc.heap h0 hlt
        have hle' := hm'.le hr'.toValid hgrown.live
        have hstack : ∃ pg, UserLeaf (s'.kernel.map c (vpn 0x1010000)) pg := by
          by_cases hpage : 0 < inc ∧ SbrkPage (s.kernel.procs c).heapEnd
            (((s.kernel.procs c).heapEnd + inc) % 2 ^ 64).toNat (vpn 0x1010000)
          · exact hgrown.user _ hpage.1 hpage.2
          · rw [hgrown.leaves.same _ hpage]
            exact hc.stack
        refine hkeep (hone c hgrown.others ⟨hm', hgrown.plainMap hg hg' hle hle' h0 hc.plain, hstack,
          (hgrown.kernel_same hle hle' (identityPage_kernelBase L)).trans hc.identity⟩ (hgrown.userStackTop.trans (hs.top c hr.live)))
          ⟨fun h => absurd (hreq.symm.trans h) (by simp), fun inc' h => ?_⟩
        obtain rfl : inc = inc' := by simpa using hreq.symm.trans h
        rw [hcur]
        exact h0
      · -- the break is above the kernel then
        have hheap := hgrown.heapEnd
        have hid : s'.kernel.map c (vpn kernelBase) = identityEntry kernelBase := by
          rw [hgrown.leaves.same _ fun hp => by omega]
          exact hc.identity
        refine hbreak (fun hn => ?_) fun hk => h0 (hcur ▸ hk.heapEnd inc hreq)
        exact not_plainMap_of_wrap hg' hid (by unfold kernelBase; omega) (hn c hgrown.live)
  | @fork j hreq hslot hcopy =>
      refine hbreak (fun hn => ?_) fun hk => by
        rw [hk.noChild hreq] at hslot
        cases hslot
      exact hcopy.not_plainMap hr.toValid hr.live hcur hg' hle (hs.top c hr.live) hc.stack (hn j hcopy.live)

theorem start (hfs : ∀ f ∈ fs, f.2.Linked) (h₀ : s.Start L fs) : s.PlainOk L := by
  obtain ⟨m, hm⟩ := h₀.kernel
  obtain ⟨F, hb, _⟩ := kernelMain_booted hfs hm
  exact ⟨⟨F, 1, hb.running⟩, fun i hl => .fresh hb.globals (hb.heap i hl) (hb.data i hl) (hb.identity i hl), hb.top⟩

end Machine.PlainOk

/-- In a run of `fork`, `exec` and `sbrk` no page of a stack or a heap is ever executable exactly when every
step meets the condition. -/
theorem noExecuteRun_iff {s₀ : Machine} (hfs : ∀ f ∈ fs, f.2.Linked) (h₀ : s₀.Start L fs) :
    s₀.kernel.NoExecute ∧ ∀ l s,
      Run (fun s t s' => (s.Step L fs t s' ∧ t.Maps) ∧ s'.kernel.NoExecute) s₀ l s ↔
        Run (fun s t s' => (s.Step L fs t s' ∧ t.Maps) ∧ KeepsPlain s t) s₀ l s := by
  have hok := Machine.PlainOk.start hfs h₀
  exact ⟨hok.noExecute, fun l s => Run.and_iff (I := fun s => s.PlainOk L)
    (fun _ _ _ hi h => hi.step hfs h.2 h.1) hok⟩

/-- The shell calls `sbrk(1)`. -/
theorem noExecuteRun_iff_sbrk : ∃ (s₀ : Machine) (t : Trap) (s : Machine), t.request = some (.sbrk 1) ∧
    Run (fun s t s' => (s.Step .kernelMap tinyFs t s' ∧ t.Maps) ∧ s'.kernel.NoExecute) s₀ [t] s := by
  obtain ⟨b₀, t, b, h⟩ := exists_firstSbrk .kernelMap
  have hkeep : KeepsPlain b₀.machine t := by
    refine ⟨fun hf => absurd (h.request.symm.trans hf) (by simp), fun inc hi => ?_⟩
    obtain rfl : 1 = inc := by simpa using h.request.symm.trans hi
    omega
  exact ⟨_, t, _, h.request, ((noExecuteRun_iff tinyFs_linked h.start.start).2 _ _).mpr
    (.single ⟨⟨h.step.step, h.step.maps⟩, hkeep⟩)⟩

namespace Machine

/-- The shell forks its first child. -/
theorem exists_firstFork (L : Layout) : ∃ (s : Machine) (t : Trap) (s' : Machine), s.Start L tinyFs ∧
    s.Step L tinyFs t s' ∧ t.request = some .fork ∧ s.kernel.freeSlot = some 2 := by
  obtain ⟨s, F, hstart, -, hfree, hboot, hroom⟩ := exists_shell L []
  obtain ⟨t, s', F', hs, hreq, -⟩ := hfree.fork tinyFs (hboot.initial hboot.live_shell) hboot.freeSlot
    (Nat.le_trans (by decide) hroom)
  exact ⟨s, t, s', hstart, hs, hreq, hboot.freeSlot⟩

end Machine

/-- The stack of the child is executable. -/
theorem noExecuteRun_fork : ¬∀ (L : Layout) (fs : Initramfs) (s₀ s : Machine) (l : List Trap),
    (∀ f ∈ fs, f.2.Linked) → s₀.Start L fs → Run (fun s t s' => s.Step L fs t s' ∧ t.Maps) s₀ l s →
      s.kernel.NoExecute := by
  intro hall
  obtain ⟨s, t, s', hstart, hs, hreq, hslot⟩ := Machine.exists_firstFork .kernelMap
  have hmaps : t.Maps := fun call h => by
    obtain rfl : Call.fork = call := Option.some.inj (hreq.symm.trans h)
    trivial
  have hplain := hall _ _ _ _ _ tinyFs_linked hstart (.single ⟨hs, hmaps⟩)
  have hkeep := ((Machine.PlainOk.start tinyFs_linked hstart).step tinyFs_linked hmaps hs).1.mp hplain
  rw [hkeep.noChild hreq] at hslot
  cases hslot

end RiscvOs
