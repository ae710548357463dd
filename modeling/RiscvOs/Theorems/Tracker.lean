import RiscvOs.Theorems.Messages

/-!
# What the allocator counts and records

The runs of the page allocator with `free_all_tracked_for_pid` as one more call. The table of the tracker
agrees with the pages that are out as long as single pages are allocated, and `free_pages` counts the free
list only.
-/

namespace RiscvOs

open ByteMem LinkedList Lts

/-- The pages that are out, each with the pid that it was allocated for. -/
structure OwnedPool extends Pool where
  ownerOf : Nat → Nat

/-- A call of the allocator by a caller, or the sweep over the allocations of a pid. -/
inductive SweepCall
  | call (c : PoolCall)
  | freeAll (pid : Nat)
  deriving Repr, DecidableEq

/-- The owners of the pages after a call. -/
def PoolCall.owners (ownerOf : Nat → Nat) : PoolCall → Nat → Nat
  | .alloc owner n pa, pg => if pg ∈ block pa n then owner else ownerOf pg
  | _, pg => ownerOf pg

/-- The pages that the entries of the pid cover. -/
def Phys.swept (s : Phys) (pid : Nat) : Finset Nat :=
  (Finset.univ.filter fun i => Tracked s pid i).biUnion fun i =>
    block (s.allocTable i).pa (s.allocTable i).npages

inductive SweepStep (L : Layout) : OwnedPool → SweepCall → OwnedPool → Prop
  | call {p p' : OwnedPool} {c : PoolCall} : PoolStep L p.toPool c p'.toPool →
      p'.ownerOf = c.owners p.ownerOf → SweepStep L p (.call c) p'
  | freeAll {p : OwnedPool} {pid : Nat} :
      SweepStep L p (.freeAll pid)
        { p with
          phys := p.phys.freeAllTrackedForPid pid
          outstanding := p.outstanding \ p.phys.swept pid }

def OwnedPool.boot (L : Layout) (m : Mem) : OwnedPool := ⟨Pool.boot L m, fun _ => 0⟩

/-- The pages that are out are the pages below the bump pointer that are not on the free list. -/
structure OwnedPool.Inv (L : Layout) (p : OwnedPool) (F : List Nat) : Prop where
  ok : AllocOk L p.phys F
  track : TrackOk L p.phys F
  out : ∀ pg, pg ∈ p.outstanding ↔ IsPage L pg ∧ ¬Avail L p.phys F pg

variable {L : Layout} {p p' : OwnedPool} {F F' : List Nat} {c : PoolCall} {d : SweepCall}
  {l : List SweepCall} {m : Mem} {s : Phys} {pa n pg pid owner : Nat} {D W : Nat → Prop}

theorem TrackOk.mem_swept (ht : TrackOk L s F) :
    pg ∈ s.swept pid ↔ ∃ i, Tracked s pid i ∧ (s.allocTable i).pa = pg := by
  simp only [Phys.swept, Finset.mem_biUnion, Finset.mem_filter, Finset.mem_univ, true_and, mem_block]
  refine exists_congr fun i => and_congr_right fun hi => ?_
  have hu : (s.allocTable i).used := by
    simp only [Tracked, Bool.and_eq_true] at hi
    exact hi.1
  rw [ht.one i hu, inBlock_one]
  exact eq_comm

namespace OwnedPool.Inv

theorem boot (L : Layout) (m : Mem) : (OwnedPool.boot L m).Inv L [] where
  ok := .boot L m
  track := .boot L m
  out := fun pg => by
    refine iff_of_false (by simp [OwnedPool.boot, Pool.boot]) fun h => h.2 (.inr ⟨h.1, h.1.ge⟩)

/-- A call that gives pages back. -/
theorem frees (hi : p.Inv L F) (hf : Frees L p.phys F p'.phys F' D W)
    (hout : ∀ pg, pg ∈ p'.outstanding ↔ pg ∈ p.outstanding ∧ ¬D pg) : p'.Inv L F' where
  ok := hf.ok
  track := hf.track
  out := fun pg => by
    rw [hout, hi.out, hf.avail, not_or, and_assoc]

/-- What a call may do: take a block, give pages back, or store to a page that is out. -/
inductive Effect (L : Layout) (p : OwnedPool) (F : List Nat) (d : SweepCall) (p' : OwnedPool) (F' : List Nat) :
    Prop
  | alloc {owner n pa : Nat} (hd : d = .call (.alloc owner n pa))
      (ha : p.phys.allocPages L owner n = .ok (pa, p'.phys)) (hb : AllocBlock L owner p.phys F pa n p'.phys F')
      (hout : p'.outstanding = p.outstanding ∪ block pa n)
      (hown : ∀ pg, p'.ownerOf pg = if pg ∈ block pa n then owner else p.ownerOf pg)
  | frees {D : Nat → Prop} (hf : Frees L p.phys F p'.phys F' D fun _ => False)
      (hout : ∀ pg, pg ∈ p'.outstanding ↔ pg ∈ p.outstanding ∧ ¬D pg) (hown : p'.ownerOf = p.ownerOf)
  | write (ok : AllocOk L p'.phys F') (track : TrackOk L p'.phys F')
      (hav : ∀ pg, Avail L p'.phys F' pg ↔ Avail L p.phys F pg)
      (htab : p'.phys.allocTable = p.phys.allocTable) (hout : p'.outstanding = p.outstanding)
      (hown : p'.ownerOf = p.ownerOf)

theorem effect (hi : p.Inv L F) (h : SweepStep L p d p') : ∃ F', Effect L p F d p' F' := by
  cases h with
  | call hc ho =>
      generalize hq : p'.toPool = q at hc
      cases hc with
      | @alloc owner n pa s hn hlt h =>
          obtain ⟨F', hb⟩ := allocPages_block hi.ok hi.track hn hlt h
          rw [show s = p'.phys by rw [hq]] at h hb
          exact ⟨F', .alloc rfl h hb (by rw [hq]) (congrFun ho)⟩
      | @free pa hpa =>
          have hp := (hi.out pa).mp hpa
          have hf := Frees.freePage hi.ok hi.track hp.1 hp.2
          rw [show p.phys.freePage pa = p'.phys by rw [hq]] at hf
          exact ⟨_, .frees hf (fun pg => by rw [hq, Finset.mem_erase, and_comm]) ho⟩
      | @freeRange pa n hsub =>
          obtain ⟨F', hf⟩ := Frees.freePagesRange hi.ok hi.track fun pg hpg =>
            (hi.out pg).mp (hsub (mem_block.mpr hpg))
          rw [show p.phys.freePagesRange pa n = p'.phys by rw [hq]] at hf
          exact ⟨F', .frees hf (fun pg => by rw [hq, Finset.mem_sdiff, mem_block]) ho⟩
      | @write a v ha =>
          have hg := Grows.write (o := 0) (W := (· = pageOf a)) hi.ok hi.track
            (m := Function.update p.phys.mem a v)
            (fun x hx => Function.update_of_ne (fun h => hx (by rw [h])) _ _)
            (fun pg hpg => hpg ▸ ((hi.out _).mp ha).2)
          exact ⟨F, .write (by rw [hq]; exact hg.ok) (by rw [hq]; exact hg.track)
            (fun pg => by rw [hq]; exact Iff.rfl) (by rw [hq]) (by rw [hq]) ho⟩
  | @freeAll pid =>
      have hf := sweep_spec hi.ok hi.track pid
      generalize p.phys.freeAllTrackedForPid pid = s at hf
      exact ⟨_, .frees hf (fun pg => by rw [Finset.mem_sdiff, hi.track.mem_swept]) rfl⟩

theorem of_effect (hi : p.Inv L F) (h : Effect L p F d p' F') : p'.Inv L F' := by
  cases h with
  | @alloc owner n pa _ _ hb hout _ =>
      refine ⟨hb.grows.ok, hb.grows.track, fun pg => ?_⟩
      rw [hout, Finset.mem_union, hi.out, mem_block, hb.avail]
      constructor
      · rintro (⟨hp, hna⟩ | hblk)
        · exact ⟨hp, fun h => hna h.1⟩
        · exact ⟨hi.ok.isPage (hb.was pg hblk), fun h => h.2 hblk⟩
      · rintro ⟨hp, hna⟩
        by_cases hblk : InBlock pa n pg
        · exact .inr hblk
        · exact .inl ⟨hp, fun h => hna ⟨h, hblk⟩⟩
  | frees hf hout _ => exact hi.frees hf hout
  | write ok track hav _ hout _ =>
      refine ⟨ok, track, fun pg => ?_⟩
      rw [hout, hi.out, hav]

theorem step (hi : p.Inv L F) (h : SweepStep L p d p') : ∃ F', p'.Inv L F' := by
  obtain ⟨F', he⟩ := hi.effect h
  exact ⟨F', hi.of_effect he⟩

theorem run (h : Run (SweepStep L) p l p') (hi : p.Inv L F) : ∃ F', p'.Inv L F' :=
  h.invariant (I := fun p => ∃ F, p.Inv L F) (fun _ _ _ ⟨_, hi⟩ hs => hi.step hs) ⟨F, hi⟩

/-! ## `free_pages` -/

/-- The pages below the bump pointer. -/
theorem card_add_length (hi : p.Inv L F) :
    p.outstanding.card + F.length = (p.phys.nextPaddr - L.freeRam) / 4096 := by
  have hnd := hi.ok.chain.nodup
  have hal := L.freeRam_aligned
  have hna := hi.ok.next_aligned
  have hge := hi.ok.next_ge
  have hunion : p.outstanding ∪ F.toFinset = block L.freeRam ((p.phys.nextPaddr - L.freeRam) / 4096) := by
    ext pg
    rw [Finset.mem_union, hi.out, List.mem_toFinset, mem_block]
    constructor
    · intro h
      have hp : IsPage L pg ∧ pg < p.phys.nextPaddr := by
        rcases h with ⟨hp, hna'⟩ | hF
        · exact ⟨hp, Nat.lt_of_not_le fun hle => hna' (.inr ⟨hp, hle⟩)⟩
        · exact hi.ok.page pg hF
      have h1 := hp.1.aligned
      have h2 := hp.1.ge
      exact ⟨(pg - L.freeRam) / 4096, by omega, by omega⟩
    · rintro ⟨j, hj, rfl⟩
      have hle := hi.ok.next_le
      by_cases hF : L.freeRam + j * 4096 ∈ F
      · exact .inr hF
      · have hp : IsPage L (L.freeRam + j * 4096) := ⟨by omega, by omega, by omega⟩
        exact .inl ⟨hp, fun h => h.elim hF fun h => by omega⟩
  have hcard := congrArg Finset.card hunion
  rw [Finset.card_union_of_disjoint (Finset.disjoint_left.mpr fun pg ho hF =>
    ((hi.out pg).mp ho).2 (.inl (List.mem_toFinset.mp hF))), List.toFinset_card_of_nodup hnd, block,
    Finset.card_image_of_injective _ (fun a b h => by simpa using h), Finset.card_range] at hcard
  exact hcard

end OwnedPool.Inv

/-- `total_pages` and `free_pages` of the `struct sysinfo` that `sys_sysinfo` fills. -/
def Kernel.reportedPages (k : Kernel) : Nat × Nat :=
  let info : Mem := fun x => k.sysinfo.getD x 0
  (load64 info 0, load64 info 8)

/-- What `sys_sysinfo` reports is right about the pages that are out. -/
def Kernel.ReportsPages (L : Layout) (k : Kernel) (outstanding : Finset Nat) : Prop :=
  k.reportedPages.1 = (L.freeRamEnd - L.freeRam) / 4096 ∧
    (k.reportedPages.1 : Int) - k.reportedPages.2 = outstanding.card

theorem load64_of_bytes {a v : Nat} (hv : v < 2 ^ 64) (h : ∀ x < 8, m (a + x) = byteOf v x) :
    load64 m a = v := by
  rw [← load64_store64_of_lt (m := m) (a := a) hv]
  refine load64_eq fun x hx => ?_
  rw [h x hx, store64, write_inside (by omega) (by omega), Nat.add_sub_cancel_left]

theorem Kernel.sysinfo_eq (k : Kernel) : k.sysinfo =
    (List.range 8).map (byteOf 0x4000) ++ (List.range 8).map (byteOf k.phys.gFreePages) := by
  simp only [Kernel.sysinfo, List.flatMap_cons, List.flatMap_nil, List.append_nil]

theorem getD_words {v w x : Nat} (hx : x < 8) :
    ((List.range 8).map (byteOf v) ++ (List.range 8).map (byteOf w)).getD x 0 = byteOf v x ∧
      ((List.range 8).map (byteOf v) ++ (List.range 8).map (byteOf w)).getD (8 + x) 0 = byteOf w x := by
  simp [List.getD_eq_getElem?_getD, List.getElem?_append, hx]

/-- The two words of a structure. -/
theorem load64_words {v w : Nat} (hv : v < 2 ^ 64) (hw : w < 2 ^ 64) :
    load64 (fun x => ((List.range 8).map (byteOf v) ++ (List.range 8).map (byteOf w)).getD x 0) 0 = v ∧
      load64 (fun x => ((List.range 8).map (byteOf v) ++ (List.range 8).map (byteOf w)).getD x 0) 8 = w := by
  refine ⟨load64_of_bytes hv fun x hx => ?_, load64_of_bytes hw fun x hx => (getD_words hx).2⟩
  rw [Nat.zero_add]
  exact (getD_words hx).1

theorem Kernel.reportedPages_eq {k : Kernel} (h : k.phys.gFreePages < 2 ^ 64) :
    k.reportedPages = (0x4000, k.phys.gFreePages) := by
  obtain ⟨h0, h8⟩ := load64_words (v := 0x4000) (by norm_num) h
  unfold Kernel.reportedPages
  rw [Kernel.sysinfo_eq]
  simp only [h0, h8]

/-- `free_pages` leaves out the pages above the bump pointer: with those that are out it makes up
`total_pages` when there are no such pages, and only then. -/
theorem sysinfo_pages_iff {k : Kernel} (h : Run (SweepStep L) (.boot L m) l p) (hk : k.phys = p.phys) :
    k.ReportsPages L p.outstanding ↔ p.phys.nextPaddr = L.freeRamEnd := by
  obtain ⟨F, hi⟩ := (OwnedPool.Inv.boot L m).run h
  have hlen := hi.ok.length_le
  have hcount := hi.ok.count
  have hcard := hi.card_add_length
  have hge := hi.ok.next_ge
  have hle := hi.ok.next_le
  have hal := hi.ok.next_aligned
  have hfr := L.freeRam_aligned
  rw [Kernel.ReportsPages, Kernel.reportedPages_eq (by rw [hk]; omega), hk, hcount]
  unfold Layout.freeRamEnd at *
  simp only
  omega

/-- No page is out at boot, and none is on the free list. -/
theorem sysinfo_pages_iff_boot :
    (Kernel.reset .kernelMap fun _ => 0).ReportsPages .kernelMap ∅ ↔
      Layout.kernelMap.freeRam = Layout.kernelMap.freeRamEnd :=
  sysinfo_pages_iff (p := .boot .kernelMap fun _ => 0) .nil rfl

/-- At boot no page is out, and 0 of 0x4000 pages are reported to be free. -/
theorem sysinfo_pages_boot : ¬∀ (L : Layout) (m : Mem) (l : List SweepCall) (p : OwnedPool) (k : Kernel),
    Run (SweepStep L) (.boot L m) l p → k.phys = p.phys → k.ReportsPages L p.outstanding := by
  intro hall
  have h := hall .kernelMap (fun _ => 0) [] _ (Kernel.reset .kernelMap fun _ => 0) .nil rfl
  rw [Kernel.ReportsPages, Kernel.reportedPages_eq (by decide)] at h
  have h2 : (0x4000 : Int) - 0 = 0 := h.2
  omega

/-! ## The table of the tracker -/

/-- The entry `i` is used, and `pg` is one of its pages. -/
def Phys.Covers (s : Phys) (i : Fin maxTrackedAllocs) (pg : Nat) : Prop :=
  (s.allocTable i).used ∧ InBlock (s.allocTable i).pa (s.allocTable i).npages pg

/-- The table covers the pages that are out, each once and under its owner, and no free page. -/
structure OwnedPool.TableExact (L : Layout) (p : OwnedPool) : Prop where
  covered : ∀ pg ∈ p.outstanding, ∃ i, p.phys.Covers i pg ∧ (p.phys.allocTable i).owner = p.ownerOf pg ∧
    ∀ j, p.phys.Covers j pg → j = i
  held : ∀ i pg, p.phys.Covers i pg → pg ∈ p.outstanding ∧ ¬p.phys.Free L pg
  /-- the sweep puts the pages of the pid on the free list, each once -/
  sweep : ∀ pid, ∃ l F, Linked (load64 p.phys.mem) 0 p.phys.freeList F ∧
    Linked (load64 (p.phys.freeAllTrackedForPid pid).mem) 0 (p.phys.freeAllTrackedForPid pid).freeList (l ++ F) ∧
    (l ++ F).Nodup ∧ ∀ pg, pg ∈ l ↔ pg ∈ p.outstanding ∧ p.ownerOf pg = pid

/-- The call allocates one page, if it allocates any. -/
def SweepCall.Single : SweepCall → Prop
  | .call (.alloc _ n _) => n = 1
  | _ => True

/-- Every page that is out has its entry. -/
structure OwnedPool.Entries (L : Layout) (p : OwnedPool) (F : List Nat) : Prop extends p.Inv L F where
  entry : ∀ pg ∈ p.outstanding, ∃ i, (p.phys.allocTable i).used ∧ (p.phys.allocTable i).pa = pg ∧
    (p.phys.allocTable i).owner = p.ownerOf pg

/-- While an entry is unused, `track_alloc` records what it is given. -/
theorem Phys.trackAlloc_entry {npages : Nat} (h : ∃ i, ¬(s.allocTable i).used) :
    ∃ i, (s.trackAlloc pa npages owner).allocTable i = { used := true, pa, npages, owner } := by
  rcases s.trackAlloc_cases pa npages owner with ⟨i, -, he⟩ | ⟨hall, -⟩
  · exact ⟨i, by rw [he]; exact Function.update_self _ _ _⟩
  · obtain ⟨i, hi⟩ := h
    exact absurd (hall i) hi

/-- The used entries after `track_alloc` are the old ones and the one it fills. -/
theorem Phys.trackAlloc_used {npages : Nat} {i : Fin maxTrackedAllocs}
    (h : ((s.trackAlloc pa npages owner).allocTable i).used) :
    (s.allocTable i).used ∨ (s.trackAlloc pa npages owner).allocTable i = { used := true, pa, npages, owner } := by
  rcases s.trackAlloc_cases pa npages owner with ⟨j, -, he⟩ | ⟨hall, -⟩
  · rw [he] at h ⊢
    by_cases hij : i = j
    · subst hij
      exact .inr (Function.update_self _ _ _)
    · simp only [Function.update_of_ne hij] at h
      exact .inl h
  · exact .inl (hall i)

theorem Phys.allocPages_entry {s' : Phys} (h : s.allocPages L owner 1 = .ok (pa, s'))
    (hfree : ∃ i, ¬(s.allocTable i).used) :
    ∃ i, s'.allocTable i = { used := true, pa, npages := 1, owner } := by
  have htab : s.allocFreeList.2.allocTable = s.allocTable := by
    unfold allocFreeList
    split <;> rfl
  simp only [allocPages, ↓reduceIte] at h
  split at h
  · simp only [Except.ok.injEq, Prod.mk.injEq] at h
    obtain ⟨rfl, rfl⟩ := h
    exact trackAlloc_entry (by simpa only [htab] using hfree)
  · split at h
    · cases h
    · simp only [Except.ok.injEq, Prod.mk.injEq] at h
      obtain ⟨rfl, rfl⟩ := h
      exact trackAlloc_entry (by simpa only [htab] using hfree)

namespace OwnedPool.Entries

theorem boot (L : Layout) (m : Mem) : (OwnedPool.boot L m).Entries L [] where
  toInv := .boot L m
  entry := fun pg h => by simp [OwnedPool.boot, Pool.boot] at h

/-- With room for one more page in the table, some entry is unused. -/
theorem exists_unused (hi : p.Inv L F) (h : p.outstanding.card < maxTrackedAllocs) :
    ∃ i, ¬(p.phys.allocTable i).used := by
  by_contra hall
  have hused : ∀ i, (p.phys.allocTable i).used := fun i => not_not.mp fun hn => hall ⟨i, hn⟩
  have hle := Finset.card_le_card_of_injOn (s := Finset.univ) (t := p.outstanding)
    (fun i => (p.phys.allocTable i).pa) (fun i _ => (hi.out _).mpr (hi.track.taken i (hused i)))
    fun i _ j _ he => hi.track.inj i j (hused i) (hused j) he
  rw [Finset.card_univ, Fintype.card_fin] at hle
  omega

theorem frees (hi : p.Entries L F) (hf : Frees L p.phys F p'.phys F' D W)
    (hout : ∀ pg, pg ∈ p'.outstanding ↔ pg ∈ p.outstanding ∧ ¬D pg) (ho : p'.ownerOf = p.ownerOf) :
    p'.Entries L F' where
  toInv := hi.toInv.frees hf hout
  entry := fun pg hpg => by
    obtain ⟨hpg, hD⟩ := (hout pg).mp hpg
    obtain ⟨i, hu, rfl, hown⟩ := hi.entry pg hpg
    have hk := hf.kept i hu hD
    exact ⟨i, by rw [hk]; exact hu, by rw [hk], by rw [hk, ho]; exact hown⟩

theorem step (hi : p.Entries L F) (h : SweepStep L p d p') (hd : d.Single)
    (hcard : p'.outstanding.card ≤ maxTrackedAllocs) : ∃ F', p'.Entries L F' := by
  obtain ⟨F', he⟩ := hi.effect h
  refine ⟨F', hi.toInv.of_effect he, ?_⟩
  cases he with
  | @alloc owner n pa hd' ha hb hout hown =>
      subst hd'
      obtain rfl : n = 1 := hd
      have hblk : ∀ pg, pg ∈ block pa 1 ↔ pg = pa := fun pg => by rw [mem_block, inBlock_one]
      have hnew : pa ∉ p.outstanding := fun hm => ((hi.out pa).mp hm).2 hb.was_one
      have hroom : p.outstanding.card < maxTrackedAllocs := by
        rw [hout, show block pa 1 = {pa} from Finset.ext fun pg => by rw [hblk, Finset.mem_singleton],
          Finset.card_union_of_disjoint (Finset.disjoint_singleton_right.mpr hnew), Finset.card_singleton] at hcard
        omega
      intro pg hpg
      by_cases hpa : pg = pa
      · subst hpa
        obtain ⟨i, hent⟩ := Phys.allocPages_entry ha (exists_unused hi.toInv hroom)
        exact ⟨i, by rw [hent], by rw [hent], by rw [hent, hown, if_pos ((hblk pg).mpr rfl)]⟩
      · rw [hout, Finset.mem_union, hblk] at hpg
        obtain ⟨i, hu, hpg', hown'⟩ := hi.entry pg (hpg.resolve_right hpa)
        have hold := hb.grows.old i hu
        exact ⟨i, by rw [hold]; exact hu, by rw [hold]; exact hpg',
          by rw [hold, hown, if_neg (fun h => hpa ((hblk pg).mp h))]; exact hown'⟩
  | frees hf hout hown => exact (hi.frees hf hout hown).entry
  | write _ _ _ htab hout hown =>
      rw [hout, htab, hown]
      exact hi.entry

theorem exact (hi : p.Entries L F) : p.TableExact L := by
  have hcov : ∀ i pg, p.phys.Covers i pg ↔ (p.phys.allocTable i).used ∧ (p.phys.allocTable i).pa = pg := by
    intro i pg
    refine and_congr_right fun hu => ?_
    rw [hi.track.one i hu, inBlock_one]
    exact eq_comm
  refine ⟨fun pg hpg => ?_, fun i pg hc => ?_, fun pid => ?_⟩
  · obtain ⟨i, hu, hpa, hown⟩ := hi.entry pg hpg
    refine ⟨i, (hcov i pg).mpr ⟨hu, hpa⟩, hown, fun j hj => ?_⟩
    obtain ⟨hju, hjp⟩ := (hcov j pg).mp hj
    exact hi.track.inj j i hju hu (hjp.trans hpa.symm)
  · obtain ⟨hu, rfl⟩ := (hcov i pg).mp hc
    obtain ⟨hp, hna⟩ := hi.track.taken i hu
    exact ⟨(hi.out _).mpr ⟨hp, hna⟩, fun hf => hna (hi.ok.free_iff.mp hf)⟩
  · obtain ⟨F', hf⟩ : ∃ F', Frees L p.phys F (p.phys.freeAllTrackedForPid pid) F' _ _ :=
      ⟨_, sweep_spec hi.ok hi.track pid⟩
    generalize p.phys.freeAllTrackedForPid pid = s at hf ⊢
    obtain ⟨l, hl, hmem⟩ := hf.list
    have hchain := hf.ok.chain
    rw [hl] at hchain
    refine ⟨l, F, hi.ok.chain, hchain, hchain.nodup, fun pg => ?_⟩
    rw [hmem]
    constructor
    · rintro ⟨i, ht, rfl⟩
      simp only [Tracked, Bool.and_eq_true, beq_iff_eq] at ht
      have hout : (p.phys.allocTable i).pa ∈ p.outstanding := (hi.out _).mpr (hi.track.taken i ht.1)
      obtain ⟨j, hju, hjp, hjo⟩ := hi.entry _ hout
      obtain rfl := hi.track.inj j i hju ht.1 hjp
      exact ⟨hout, hjo.symm.trans ht.2⟩
    · rintro ⟨hout, rfl⟩
      obtain ⟨i, hu, hpa, hown⟩ := hi.entry pg hout
      exact ⟨i, by simp [Tracked, hu, hown], hpa⟩

end OwnedPool.Entries

/-- In every state of a run that allocates single pages only, and never has more of them out than the table
has entries, the table is exact. -/
theorem trackerRun_exact (h : Run (fun p d p' => (SweepStep L p d p' ∧ p'.outstanding.card ≤ maxTrackedAllocs) ∧
    d.Single) (.boot L m) l p) : p.TableExact L := by
  obtain ⟨F, hi⟩ := h.invariant (I := fun p => ∃ F, p.Entries L F)
    (fun _ _ _ ⟨_, hi⟩ hs => hi.step hs.1.1 hs.2 hs.1.2) ⟨[], .boot L m⟩
  exact hi.exact

/-- The first block that is allocated after boot. -/
theorem exists_first_block (n : Nat) (hn : 0 < n) (hle : 0x804cb000 + n * 4096 ≤ 0x844cb000) :
    ∃ p, SweepStep .kernelMap (.boot .kernelMap fun _ => 0) (.call (.alloc 3 n 0x804cb000)) p ∧
      p.outstanding = block 0x804cb000 n ∧
      ∀ i, (p.phys.allocTable i).used → (p.phys.allocTable i).pa = 0x804cb000 ∧ (p.phys.allocTable i).npages = 1 := by
  have ha := Phys.allocPages_of_bump (L := .kernelMap) (s := Phys.boot .kernelMap fun _ => 0) (o := 3) (n := n)
    (fun _ => rfl) hle
  rw [show (Phys.boot .kernelMap fun _ => 0).nextPaddr = 0x804cb000 from rfl,
    show (Phys.boot .kernelMap fun _ => 0).mem = fun _ => 0 from rfl] at ha
  -- the state before `track_alloc`
  obtain ⟨s₁, hs₁⟩ : ∃ s₁ : Phys, s₁ = { Phys.boot .kernelMap fun _ => 0 with
      nextPaddr := 0x804cb000 + n * 4096, mem := memset (fun _ => 0) 0x804cb000 0 (n * 4096) } := ⟨_, rfl⟩
  have hnone : ∀ i, ¬(s₁.allocTable i).used := fun i h => by
    rw [hs₁] at h
    cases h
  rw [← hs₁] at ha
  obtain ⟨s₂, hs₂⟩ : ∃ s₂, s₂ = s₁.trackAlloc 0x804cb000 1 3 := ⟨_, rfl⟩
  have htab : ∀ i, (s₂.allocTable i).used → (s₂.allocTable i).pa = 0x804cb000 ∧ (s₂.allocTable i).npages = 1 := by
    intro i hi
    rw [hs₂] at hi ⊢
    rw [(Phys.trackAlloc_used hi).resolve_left (hnone i)]
    exact ⟨rfl, rfl⟩
  rw [← hs₂] at ha
  have hlt : 0x804cb000 + n * 4096 < 2 ^ 64 := Nat.lt_of_le_of_lt hle (by norm_num)
  exact ⟨⟨⟨s₂, _, _⟩, _⟩, .call (.alloc hn hlt ha) rfl, Finset.empty_union _, htab⟩

/-- One page, for the pid 3. -/
theorem trackerRun_exact_page : ∃ p : OwnedPool, p.outstanding = block 0x804cb000 1 ∧ p.TableExact .kernelMap := by
  obtain ⟨p, hs, hout, -⟩ := exists_first_block 1 (by norm_num) (by norm_num)
  have hcard : p.outstanding.card ≤ maxTrackedAllocs := by
    rw [hout, block, Finset.range_one, Finset.image_singleton, Finset.card_singleton]
    norm_num [maxTrackedAllocs]
  exact ⟨p, hout, trackerRun_exact (.single ⟨⟨hs, hcard⟩, rfl⟩)⟩

/-- A block of two pages: no entry covers the second one. -/
theorem trackerRun_exact_block : ¬∀ (L : Layout) (m : Mem) (l : List SweepCall) (p : OwnedPool),
    Run (fun p d p' => SweepStep L p d p' ∧ p'.outstanding.card ≤ maxTrackedAllocs) (.boot L m) l p →
      p.TableExact L := by
  intro hall
  obtain ⟨p, hs, hout, htab⟩ := exists_first_block 2 (by norm_num) (by norm_num)
  have hcard : p.outstanding.card ≤ maxTrackedAllocs := by
    rw [hout]
    exact (Finset.card_image_le.trans (Finset.card_range 2).le).trans (by norm_num [maxTrackedAllocs])
  have hmem : 0x804cc000 ∈ p.outstanding := by
    rw [hout]
    exact mem_block.mpr ⟨1, by norm_num, rfl⟩
  obtain ⟨i, ⟨hu, j, hj, he⟩, -⟩ := (hall _ _ _ _ (.single ⟨hs, hcard⟩)).covered _ hmem
  obtain ⟨hpa, hn⟩ := htab i hu
  rw [hn] at hj
  rw [hpa] at he
  omega

end RiscvOs
