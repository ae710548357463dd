import RiscvOs.Lemmas.Total

/-!
# A child of `sys_fork` and its parent

The child starts with a copy of its parent's pages in frames of its own, and from then on neither of them
sees what the other stores.
-/

namespace RiscvOs

open ByteMem Kernel

/-! ## Stores of a user program -/

/-- The byte of memory behind `va` for the user of a page table. -/
def userAddr (m : Mem) (root va : Nat) : Option Nat :=
  (userFrame (leafAt m root (vpn va))).map fun pg => pg + va % 4096

def userView (m : Mem) (root va : Nat) : Option UInt8 := (userAddr m root va).map m

/-- A store, whether or not the page is writable. -/
structure UserStore where
  root : Nat
  va : Nat
  byte : UInt8

def UserStore.run (m : Mem) (o : UserStore) : Mem :=
  match userAddr m o.root o.va with
  | some pa => Function.update m pa o.byte
  | none => m

/-- Two address spaces without a common page. -/
structure Disjoint (L : Layout) (s : Phys) (F : List Nat) (root root' : Nat) : Prop where
  space : SpaceOk L s F root
  space' : SpaceOk L s F root'
  apart : ∀ pg, InSpace s.mem root pg → ¬InSpace s.mem root' pg

variable {L : Layout} {s : Phys} {F : List Nat} {root root' : Nat} {m m' : Mem} {o : UserStore}
  {k k' : Kernel} {c : Fin procsMax}

theorem Disjoint.symm (h : Disjoint L s F root root') : Disjoint L s F root' root :=
  ⟨h.space', h.space, fun pg h1 h2 => h.apart pg h2 h1⟩

/-- A store through a page table writes one byte of a frame, and no table. -/
theorem SpaceOk.userAddr (h : SpaceOk L s F root) {va pa : Nat} (hpa : userAddr s.mem root va = some pa) :
    InSpace s.mem root (pageOf pa) ∧ ¬IsTable s.mem root (pageOf pa) := by
  obtain ⟨pg, hf, rfl⟩ := Option.map_eq_some_iff.mp hpa
  have hp := (h.page pg (inSpace_of_frame hf)).1
  have ho : pageOf (pg + va % 4096) = pg :=
    (pageOf_eq_iff hp.aligned).mpr ⟨Nat.le_add_right _ _, Nat.add_lt_add_left (Nat.mod_lt _ (by decide)) _⟩
  rw [ho]
  exact ⟨inSpace_of_frame hf, h.frame_not_table hf⟩

theorem userStore_outside {a : Nat} (h : userAddr m o.root o.va ≠ some a) : o.run m a = m a := by
  unfold UserStore.run
  cases hpa : userAddr m o.root o.va with
  | none => rfl
  | some pa =>
      have hne : a ≠ pa := fun he => h (by rw [hpa, he])
      exact Function.update_of_ne hne _ _

/-- A store by one of the two writes to no table of the first. -/
theorem Disjoint.run_table (h : Disjoint L s F root root') (ho : o.root = root ∨ o.root = root') {a : Nat}
    (ha : IsTable s.mem root (pageOf a)) : o.run s.mem a = s.mem a := by
  refine userStore_outside fun hpa => ?_
  rcases ho with he | he
  · rw [he] at hpa
    exact (h.space.userAddr hpa).2 ha
  · rw [he] at hpa
    exact h.apart _ ha.inSpace (h.space'.userAddr hpa).1

theorem Disjoint.run (h : Disjoint L s F root root') (ho : o.root = root ∨ o.root = root') :
    Disjoint L { s with mem := o.run s.mem } F root root' := by
  have h1 := fun a => h.run_table (a := a) ho
  have h2 := fun a => h.symm.run_table (a := a) ho.symm
  refine ⟨h.space.congr h1 fun pg hpg => (h.space.page pg hpg).2,
    h.space'.congr h2 fun pg hpg => (h.space'.page pg hpg).2, fun pg ⟨q, hq⟩ ⟨q', hq'⟩ => ?_⟩
  rw [spaceAt_congr h1 fun pg => h.space.tables.aligned] at hq
  rw [spaceAt_congr h2 fun pg => h.space'.tables.aligned] at hq'
  exact h.apart pg ⟨q, hq⟩ ⟨q', hq'⟩

/-- The two memories have the same contents in the pages of the space. -/
def Agree (root : Nat) (m m' : Mem) : Prop := ∀ a, InSpace m root (pageOf a) → m' a = m a

theorem Agree.userAddr (h : Agree root s.mem m') (hs : SpaceOk L s F root) (va : Nat) :
    userAddr m' root va = userAddr s.mem root va := by
  unfold RiscvOs.userAddr
  rw [leafAt_congr (fun a ha => h a ha.inSpace) fun pg => hs.tables.aligned]

theorem Agree.userView (h : Agree root s.mem m') (hs : SpaceOk L s F root) (va : Nat) :
    userView m' root va = userView s.mem root va := by
  unfold RiscvOs.userView
  rw [h.userAddr hs]
  cases hpa : RiscvOs.userAddr s.mem root va with
  | none => rfl
  | some pa =>
      rw [Option.map_some, Option.map_some, h pa (hs.userAddr hpa).1]

/-- Both make a store of the first space. -/
theorem Agree.run_own (h : Agree root s.mem m') (hd : Disjoint L s F root root') (ho : o.root = root) :
    Agree root (o.run s.mem) (o.run m') := by
  intro a ⟨q, hq⟩
  rw [spaceAt_congr (fun a => hd.run_table (.inl ho)) fun pg => hd.space.tables.aligned] at hq
  have hua := h.userAddr hd.space o.va
  rw [← ho] at hua
  unfold UserStore.run
  rw [hua]
  cases RiscvOs.userAddr s.mem o.root o.va with
  | none => exact h a ⟨q, hq⟩
  | some pa =>
      show Function.update m' pa o.byte a = Function.update s.mem pa o.byte a
      by_cases he : a = pa
      · subst he
        rw [Function.update_self, Function.update_self]
      · rw [Function.update_of_ne he, Function.update_of_ne he]
        exact h a ⟨q, hq⟩

/-- One makes a store of the other space. -/
theorem Agree.run_other (h : Agree root s.mem m') (hd : Disjoint L s F root root') (ho : o.root = root') :
    Agree root (o.run s.mem) m' := by
  intro a ⟨q, hq⟩
  rw [spaceAt_congr (fun a => hd.run_table (.inr ho)) fun pg => hd.space.tables.aligned] at hq
  rw [userStore_outside fun hpa => ?_]
  · exact h a ⟨q, hq⟩
  · rw [ho] at hpa
    exact hd.apart _ ⟨q, hq⟩ (hd.space'.userAddr hpa).1

/-- What the user of one space sees after stores of both is what it sees after its own. -/
theorem Disjoint.stores {l : List UserStore} (hd : Disjoint L s F root root')
    (hl : ∀ o ∈ l, o.root = root ∨ o.root = root') (h : Agree root s.mem m') (va : Nat) :
    userView (l.foldl UserStore.run s.mem) root va =
      userView ((l.filter (·.root == root)).foldl UserStore.run m') root va := by
  induction l generalizing s m' with
  | nil => exact (h.userView hd.space va).symm
  | cons o l ih =>
      have ho := hl o (by simp)
      have hl' : ∀ o ∈ l, o.root = root ∨ o.root = root' := fun o h => hl o (by simp [h])
      have hd' := hd.run ho
      rw [List.foldl_cons]
      by_cases he : o.root = root
      · rw [List.filter_cons_of_pos (by simp [he]), List.foldl_cons]
        have hr : Agree root (o.run s.mem) (o.run m') := h.run_own hd he
        exact ih (s := { s with mem := o.run s.mem }) hd' hl' hr
      · rw [List.filter_cons_of_neg (by simp [he])]
        have hr : Agree root (o.run s.mem) m' := h.run_other hd (ho.resolve_left he)
        exact ih (s := { s with mem := o.run s.mem }) hd' hl' hr

/-! ## `sys_fork` -/

/-- A state between two traps that is well formed. -/
def Kernel.WellFormed (L : Layout) (k : Kernel) : Prop := ∃ F, k.Valid L F

/-- The copy of the page at `va`: it is the one frame of the child that it is mapped at, it was free, it is
no frame of the parent, and it has the same bytes. -/
structure PageCopied (L : Layout) (k k' : Kernel) (parent child va : Nat) : Prop where
  mapped : Phys.walkPage k'.phys.mem child va ≠ 0 ↔ Phys.walkPage k.phys.mem parent va ≠ 0
  fresh : ∀ pg, Phys.walkPage k'.phys.mem child va = pg → pg ≠ 0 →
    k.phys.Free L pg ∧ ¬k'.phys.Free L pg
  notParent : ∀ pg, Phys.walkPage k'.phys.mem child va = pg → pg ≠ 0 →
    ∀ v, userFrame (leafAt k.phys.mem parent v) ≠ some pg
  notOther : ∀ pg, Phys.walkPage k'.phys.mem child va = pg → pg ≠ 0 →
    ∀ v, v ≠ vpn va → userFrame (leafAt k'.phys.mem child v) ≠ some pg
  bytes : ∀ pg, Phys.walkPage k'.phys.mem child va = pg → pg ≠ 0 → ∀ x < 4096,
    k'.phys.mem (pg + x) = k.phys.mem (Phys.walkPage k.phys.mem parent va + x)

/-- What the child in slot `c` and its parent have in common after `sys_fork`, and what they do not. -/
structure ForkIsolates (L : Layout) (k k' : Kernel) (c : Fin procsMax) : Prop where
  pages : ∀ va, va % 4096 = 0 → userBase ≤ va →
    va < max (k.procs k.cur).heapEnd (k.procs k.cur).userStackTop →
    PageCopied L k k' (k.procs k.cur).pageTable (k'.procs c).pageTable va
  parent : k'.procs k.cur = k.procs k.cur
  parentTable : ∀ a, IsTable k.phys.mem (k.procs k.cur).pageTable (pageOf a) → k'.phys.mem a = k.phys.mem a
  parentMemory : ∀ va, userView k'.phys.mem (k.procs k.cur).pageTable va =
    userView k.phys.mem (k.procs k.cur).pageTable va
  frame : ∀ j < 32, tfWord k'.phys.mem (k'.procs c).tf j =
    if j = tfA0 then 0 else if j = tfEpc then (tfWord k.phys.mem (k.procs k.cur).tf tfEpc + 4) % 2 ^ 64
    else tfWord k.phys.mem (k.procs k.cur).tf j
  /-- later stores of both: each sees its own -/
  later : ∀ l : List UserStore,
    (∀ o ∈ l, o.root = (k.procs k.cur).pageTable ∨ o.root = (k'.procs c).pageTable) →
    ∀ root, root = (k.procs k.cur).pageTable ∨ root = (k'.procs c).pageTable → ∀ va,
      userView (l.foldl UserStore.run k'.phys.mem) root va =
        userView ((l.filter (·.root == root)).foldl UserStore.run k'.phys.mem) root va

/-- A page below the kernel is mapped when it has a frame of the user, and that is what `walk_page` finds. -/
theorem SpaceMap.walkPage (h : SpaceMap L m root) (hs : ∀ pg, InSpace m root pg → IsPage L pg) {va : Nat}
    (hva : va < kernelBase) :
    Phys.walkPage m root va = 0 ∧ userFrame (leafAt m root (vpn va)) = none ∨
      ∃ pg, Phys.walkPage m root va = pg ∧ pg ≠ 0 ∧ userFrame (leafAt m root (vpn va)) = some pg := by
  rw [walkPage_eq]
  cases hv : pteHas (leafAt m root (vpn va)) pteV with
  | false =>
      left
      simp [pteNext, userFrame, hv]
  | true =>
      obtain ⟨pg, hl⟩ := h.below ⟨va, hva, rfl⟩ hv
      refine .inr ⟨pg, ?_, (hs pg (inSpace_of_frame hl.frame)).ne_zero, hl.frame⟩
      rw [pteNext_of_userFrame hl.frame, Option.getD_some]

theorem forkSource_isSome {table va : Nat} :
    (forkSource table m va).isSome ↔ Phys.walkPage m table va ≠ 0 := by
  unfold forkSource
  split
  · simp [*]
  · simp [*]

/-- The pages copied are the mapped ones. -/
theorem copyPage_iff {va : Nat} (hheap : (k.procs k.cur).heapEnd ≤ kernelBase)
    (hstack : (k.procs k.cur).userStackTop ≤ kernelBase) (hva : va % 4096 = 0) (hge : userBase ≤ va)
    (hlt : va < max (k.procs k.cur).heapEnd (k.procs k.cur).userStackTop) :
    k.CopyPage (vpn va) ↔ Phys.walkPage k.phys.mem (k.procs k.cur).pageTable va ≠ 0 := by
  have hle : ¬max (k.procs k.cur).heapEnd (k.procs k.cur).userStackTop > 2 ^ 64 - 4096 := by
    unfold kernelBase at *
    omega
  unfold CopyPage loopPages Phys.pagesUpTo
  rw [if_neg hle]
  constructor
  · rintro ⟨i, _, hv, hs⟩
    rw [forkSource_isSome, walkPage_eq, ← hv, ← walkPage_eq] at hs
    exact hs
  · intro hs
    have he : userBase + 4096 * ((va - userBase) / 4096) = va := by
      unfold userBase at *
      omega
    refine ⟨(va - userBase) / 4096, ?_, by rw [he], by rwa [he, forkSource_isSome]⟩
    unfold userBase at *
    omega

namespace Kernel.Forked

variable {F' : List Nat} {tf : Nat} (hf : Forked L k F c tf root k' F') (hk : k.Inv L F) (hl : k.Live k.cur)
  (hpt : (k.procs k.cur).pageTable ≠ 0)

include hf hk hl hpt

/-- The address spaces of parent and child have no page in common. -/
theorem disjoint : Disjoint L k'.phys F' (k.procs k.cur).pageTable root := by
  have hs := (hk.proc _ hl).spaceOk hpt
  have hm : ∀ a, IsTable k.phys.mem (k.procs k.cur).pageTable (pageOf a) → k'.phys.mem a = k.phys.mem a :=
    fun a ha => hk.space_grows hl hpt hf.grows ha.inSpace
  refine ⟨hs.congr hm fun pg hpg hav => (hs.page pg hpg).2 (hf.grows.avail pg hav), hf.space,
    fun pg ⟨q, hq⟩ hpg => ?_⟩
  rw [spaceAt_congr hm fun pg => hs.tables.aligned] at hq
  exact (hs.page pg ⟨q, hq⟩).2 (hf.new pg hpg).1

theorem pageCopied {va : Nat} (hheap : (k.procs k.cur).heapEnd ≤ kernelBase)
    (hstack : (k.procs k.cur).userStackTop ≤ kernelBase) (hva : va % 4096 = 0) (hge : userBase ≤ va)
    (hlt : va < max (k.procs k.cur).heapEnd (k.procs k.cur).userStackTop) :
    PageCopied L k k' (k.procs k.cur).pageTable root va := by
  have hcopy := copyPage_iff hheap hstack hva hge hlt
  have hbelow : va < kernelBase := Nat.lt_of_lt_of_le hlt (Nat.max_le.mpr ⟨hheap, hstack⟩)
  have hs := (hk.proc _ hl).spaceOk hpt
  have hparent := ((hk.proc _ hl).map hpt).walkPage (fun pg h => (hs.page pg h).1) hbelow
  have hchild := hf.map.walkPage (fun pg h => (hf.space.page pg h).1) hbelow
  -- a frame that `walk_page` finds in the child is one of its own frames
  have hown : ∀ pg, Phys.walkPage k'.phys.mem root va = pg → pg ≠ 0 →
      userFrame (leafAt k'.phys.mem root (vpn va)) = some pg ∧ k.CopyPage (vpn va) := by
    intro pg hw hpg
    rcases hchild with ⟨h0, _⟩ | ⟨pg', hw', _, hu⟩
    · exact absurd (hw.symm.trans h0) hpg
    · obtain rfl : pg = pg' := hw.symm.trans hw'
      refine ⟨hu, Classical.byContradiction fun hn => ?_⟩
      rw [hf.rest _ hn] at hu
      cases hu
  refine ⟨⟨fun h => ?_, fun h => ?_⟩, fun pg hw hpg => ?_, fun pg hw hpg v hv => ?_,
    fun pg hw hpg v hv hv' => ?_, fun pg hw hpg x hx => ?_⟩
  · exact hcopy.mp (hown _ rfl h).2
  · obtain ⟨pg, hl⟩ := (hf.leaf _ (hcopy.mpr h)).user
    rcases hchild with ⟨_, h0⟩ | ⟨pg', hw, hne, _⟩
    · rw [hl.frame] at h0
      cases h0
    · rw [hw]
      exact hne
  · have hin := inSpace_of_frame (hown pg hw hpg).1
    rw [hk.ok.free_iff, hf.grows.ok.free_iff]
    exact ⟨(hf.new pg hin).1, (hf.space.page pg hin).2⟩
  · exact (hs.page pg (inSpace_of_frame hv)).2 (hf.new pg (inSpace_of_frame (hown pg hw hpg).1)).1
  · exact hv (hf.space.frame_inj hv' (hown pg hw hpg).1)
  · obtain ⟨hu, hc⟩ := hown pg hw hpg
    rcases hparent with ⟨h0, _⟩ | ⟨fr, hfr, _, hfu⟩
    · exact absurd h0 (hcopy.mp hc)
    · rw [hfr]
      exact hf.copy _ pg fr x hc hu hfu hx

end Kernel.Forked

end RiscvOs
