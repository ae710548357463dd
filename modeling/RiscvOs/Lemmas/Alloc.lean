import RiscvOs.Lib.Linked
import RiscvOs.Lib.Outcome
import RiscvOs.Lemmas.Pte

/-!
# The page allocator

`AllocOk L s F`: the chain from `free_list` visits the pages `F` and ends, `g_free_pages` counts them,
and they lie below the bump pointer. `Avail L s F pg`: the allocator may still hand out `pg`. The other
pages of free RAM are allocated. `Grows` is what a step that only allocates does to a state: it takes
available pages, and writes to them and to the pages of `W`.
-/

namespace RiscvOs

open ByteMem LinkedList Outcome

/-- The base address of the page of an address. -/
def pageOf (a : Nat) : Nat := a / 4096 * 4096

theorem pageOf_eq_iff {pg a : Nat} (h : pg % 4096 = 0) : pageOf a = pg ↔ pg ≤ a ∧ a < pg + 4096 := by
  unfold pageOf
  omega

/-- The page at `pg` is a page of free RAM. -/
structure IsPage (L : Layout) (pg : Nat) : Prop where
  aligned : pg % 4096 = 0
  ge : L.freeRam ≤ pg
  lt : pg < L.freeRamEnd

theorem IsPage.ne_zero {L : Layout} {pg : Nat} (h : IsPage L pg) : pg ≠ 0 := by
  have := h.ge
  have := L.kernelBase_lt_freeRam
  omega

theorem IsPage.end_le {L : Layout} {pg : Nat} (h : IsPage L pg) : pg + 4096 ≤ L.freeRamEnd := by
  have := h.lt
  have := h.aligned
  have := L.freeRamEnd_aligned
  omega

theorem IsPage.lt_64 {L : Layout} {pg : Nat} (h : IsPage L pg) : pg + 4096 < 0xA0000000 := by
  have := h.end_le
  have := L.freeRamEnd_lt
  omega

structure AllocOk (L : Layout) (s : Phys) (F : List Nat) : Prop where
  chain : Linked (load64 s.mem) 0 s.freeList F
  count : s.gFreePages = F.length
  page : ∀ pg ∈ F, IsPage L pg ∧ pg < s.nextPaddr
  next_aligned : s.nextPaddr % 4096 = 0
  next_ge : L.freeRam ≤ s.nextPaddr
  next_le : s.nextPaddr ≤ L.freeRamEnd

/-- The allocator may still hand out `pg`. -/
def Avail (L : Layout) (s : Phys) (F : List Nat) (pg : Nat) : Prop :=
  pg ∈ F ∨ IsPage L pg ∧ s.nextPaddr ≤ pg

/-- The used entries of the table are single allocated pages, each once. -/
structure TrackOk (L : Layout) (s : Phys) (F : List Nat) : Prop where
  one : ∀ i, (s.allocTable i).used → (s.allocTable i).npages = 1
  taken : ∀ i, (s.allocTable i).used →
    IsPage L (s.allocTable i).pa ∧ ¬Avail L s F (s.allocTable i).pa
  inj : ∀ i j, (s.allocTable i).used → (s.allocTable j).used →
    (s.allocTable i).pa = (s.allocTable j).pa → i = j

variable {L : Layout} {s s' s'' : Phys} {F F' F'' : List Nat} {o pa pg n : Nat}
  {W W' : Nat → Prop}

theorem AllocOk.isPage (hs : AllocOk L s F) (h : Avail L s F pg) : IsPage L pg := by
  rcases h with h | h
  · exact (hs.page pg h).1
  · exact h.1

/-- The chain from `free_list` visits the page. -/
def Phys.OnFreeList (s : Phys) (pg : Nat) : Prop := OnChain (load64 s.mem) 0 s.freeList pg

/-- The page is not allocated: it is on the free list or above the bump pointer. -/
def Phys.Free (L : Layout) (s : Phys) (pg : Nat) : Prop := s.OnFreeList pg ∨ IsPage L pg ∧ s.nextPaddr ≤ pg

theorem AllocOk.onFreeList_iff (hs : AllocOk L s F) : s.OnFreeList pg ↔ pg ∈ F := hs.chain.onChain_iff

theorem AllocOk.free_iff (hs : AllocOk L s F) : s.Free L pg ↔ Avail L s F pg :=
  or_congr_left hs.onFreeList_iff

/-! ## The table of tracked allocations -/

theorem Phys.findTrack_some {P : AllocTrack → Bool} {i : Fin maxTrackedAllocs}
    (h : s.findTrack P = some i) : P (s.allocTable i) :=
  @List.find?_some _ (fun i => P (s.allocTable i)) _ _ h

theorem Phys.findTrack_none {P : AllocTrack → Bool} (h : s.findTrack P = none)
    (i : Fin maxTrackedAllocs) : ¬P (s.allocTable i) :=
  (@List.find?_eq_none _ (fun i => P (s.allocTable i)) _).mp h i (List.mem_finRange i)

/-- `track_alloc` fills one unused entry, or changes nothing when there is none. -/
theorem Phys.trackAlloc_cases (s : Phys) (pa npages owner : Nat) :
    (∃ i, ¬(s.allocTable i).used ∧ s.trackAlloc pa npages owner =
      { s with
        allocTable := Function.update s.allocTable i { used := true, pa, npages, owner }
        allocTableCount := inc64 s.allocTableCount }) ∨
    (∀ i, (s.allocTable i).used) ∧ s.trackAlloc pa npages owner = s := by
  unfold trackAlloc
  split
  · rename_i h
    exact .inr ⟨fun i => by simpa using findTrack_none h i, rfl⟩
  · rename_i i h
    exact .inl ⟨i, by simpa using findTrack_some h, rfl⟩

/-- `track_free` marks one entry of the page unused, or changes nothing when there is none. -/
theorem Phys.trackFree_cases (s : Phys) (pa npages : Nat) :
    (∃ i, (s.allocTable i).used ∧ (s.allocTable i).pa = pa ∧ (s.allocTable i).npages = npages ∧
      s.trackFree pa npages =
        { s with
          allocTable := Function.update s.allocTable i { s.allocTable i with used := false }
          allocTableCount := dec64 s.allocTableCount }) ∨
    (∀ i, (s.allocTable i).used → (s.allocTable i).pa = pa → (s.allocTable i).npages ≠ npages) ∧
      s.trackFree pa npages = s := by
  unfold trackFree
  split
  · rename_i h
    refine .inr ⟨fun i hu hp hn => ?_, rfl⟩
    exact findTrack_none h i (by simp [hu, hp, hn])
  · rename_i i h
    have := findTrack_some h
    simp only [Bool.and_eq_true, beq_iff_eq] at this
    exact .inl ⟨i, this.1.1, this.1.2, this.2, rfl⟩

section Fields

variable (s) (pa npages owner : Nat)

@[simp] theorem Phys.trackAlloc_mem : (s.trackAlloc pa npages owner).mem = s.mem := by
  unfold trackAlloc; split <;> rfl

@[simp] theorem Phys.trackAlloc_freeList : (s.trackAlloc pa npages owner).freeList = s.freeList := by
  unfold trackAlloc; split <;> rfl

@[simp] theorem Phys.trackAlloc_nextPaddr :
    (s.trackAlloc pa npages owner).nextPaddr = s.nextPaddr := by
  unfold trackAlloc; split <;> rfl

@[simp] theorem Phys.trackAlloc_gFreePages :
    (s.trackAlloc pa npages owner).gFreePages = s.gFreePages := by
  unfold trackAlloc; split <;> rfl

@[simp] theorem Phys.trackFree_mem : (s.trackFree pa npages).mem = s.mem := by
  unfold trackFree; split <;> rfl

@[simp] theorem Phys.trackFree_freeList : (s.trackFree pa npages).freeList = s.freeList := by
  unfold trackFree; split <;> rfl

@[simp] theorem Phys.trackFree_nextPaddr : (s.trackFree pa npages).nextPaddr = s.nextPaddr := by
  unfold trackFree; split <;> rfl

@[simp] theorem Phys.trackFree_gFreePages : (s.trackFree pa npages).gFreePages = s.gFreePages := by
  unfold trackFree; split <;> rfl

end Fields

/-! ## Counters -/

/-- The free list holds each page of free RAM at most once, so its length is bounded. -/
theorem AllocOk.length_le (hs : AllocOk L s F) : F.length ≤ 0x4000 := by
  have hnd : (F.map (· / 4096)).Nodup := by
    refine hs.chain.nodup.map_on fun a ha b hb h => ?_
    have ha := (hs.page a ha).1.aligned
    have hb := (hs.page b hb).1.aligned
    omega
  have hsub : F.map (· / 4096) ⊆ List.range' (L.freeRam / 4096) 0x4000 := by
    intro k hk
    obtain ⟨a, ha, rfl⟩ := List.mem_map.mp hk
    have ha := (hs.page a ha).1
    have h1 := ha.ge
    have h2 := ha.lt
    have h3 := L.freeRam_aligned
    unfold Layout.freeRamEnd at h2
    simp only [List.mem_range'_1]
    omega
  simpa using (List.subperm_of_subset hnd hsub).length_le

theorem inc64_of_lt {x : Nat} (h : x < 2 ^ 63) : inc64 x = x + 1 := by
  unfold inc64
  omega

theorem dec64_succ {x : Nat} (h : x < 2 ^ 63) : dec64 (x + 1) = x := by
  unfold dec64
  omega

theorem AllocOk.freeList_lt (hs : AllocOk L s F) : s.freeList < 2 ^ 64 := by
  have hc := hs.chain
  cases F with
  | nil =>
      have h0 : s.freeList = 0 := hc
      omega
  | cons x xs =>
      have := (hs.page x (by simp)).1.lt_64
      have := hc.1
      omega

/-! ## Steps that only allocate -/

/-- From `s` to `s'` pages are only taken from the allocator, for the pid `owner`. Outside the pages that
were available, only the pages of `W` are written. -/
structure Grows (L : Layout) (o : Nat) (s : Phys) (F : List Nat) (s' : Phys) (F' : List Nat)
    (W : Nat → Prop) : Prop where
  ok : AllocOk L s' F'
  track : TrackOk L s' F'
  avail : ∀ pg, Avail L s' F' pg → Avail L s F pg
  next : s.nextPaddr ≤ s'.nextPaddr
  mem : ∀ a, ¬Avail L s F (pageOf a) → ¬W (pageOf a) → s'.mem a = s.mem a
  old : ∀ i, (s.allocTable i).used → s'.allocTable i = s.allocTable i
  new : ∀ i, (s'.allocTable i).used → s'.allocTable i = s.allocTable i ∨
    (s'.allocTable i).owner = o ∧ Avail L s F (s'.allocTable i).pa

theorem Grows.refl (hs : AllocOk L s F) (ht : TrackOk L s F) : Grows L o s F s F W :=
  ⟨hs, ht, fun _ h => h, Nat.le_refl _, fun _ _ _ => rfl, fun _ _ => rfl, fun _ _ => .inl rfl⟩

theorem Grows.trans (h : Grows L o s F s' F' W) (h' : Grows L o s' F' s'' F'' W')
    (hW : ∀ pg, W' pg → W pg ∨ Avail L s F pg) : Grows L o s F s'' F'' W where
  ok := h'.ok
  track := h'.track
  avail pg hp := h.avail pg (h'.avail pg hp)
  next := Nat.le_trans h.next h'.next
  mem a ha hw := by
    rw [h'.mem a (fun hp => ha (h.avail _ hp)) (fun hw' => (hW _ hw').elim hw ha), h.mem a ha hw]
  old i hi := by
    have := h.old i hi
    rw [h'.old i (this ▸ hi), this]
  new i hi := by
    rcases h'.new i hi with he | ⟨ho, hp⟩
    · rcases h.new i (he ▸ hi) with he' | ⟨ho, hp⟩
      · exact .inl (he.trans he')
      · exact .inr (he ▸ ⟨ho, hp⟩)
    · exact .inr ⟨ho, h.avail _ hp⟩

theorem Grows.mono (h : Grows L o s F s' F' W) (hW : ∀ pg, W pg → W' pg) :
    Grows L o s F s' F' W' :=
  { h with mem := fun a ha hw => h.mem a ha fun hw' => hw (hW _ hw') }

/-- A page that was available is tracked for the pid that took it. -/
theorem Grows.owner_eq (h : Grows L o s F s' F' W) (ht : TrackOk L s F) {i : Fin maxTrackedAllocs}
    (hi : (s'.allocTable i).used) (hav : Avail L s F (s'.allocTable i).pa) :
    (s'.allocTable i).owner = o := by
  rcases h.new i hi with he | ⟨ho, _⟩
  · rw [he] at hi hav
    exact absurd hav (ht.taken i hi).2
  · exact ho

/-- A step that only writes memory, and no available page. -/
theorem Grows.write (hs : AllocOk L s F) (ht : TrackOk L s F) {m : Mem}
    (hm : ∀ a, ¬W (pageOf a) → m a = s.mem a) (hW : ∀ pg, W pg → ¬Avail L s F pg) :
    Grows L o s F { s with mem := m } F W := by
  refine ⟨?_, ⟨ht.one, ht.taken, ht.inj⟩, fun _ h => h, Nat.le_refl _, fun a _ hw => hm a hw,
    fun _ _ => rfl, fun _ _ => .inl rfl⟩
  have hc : Linked (load64 m) 0 s.freeList F := hs.chain.congr fun y hy => by
    refine load64_congr fun x h1 h2 => hm x fun hw => hW _ hw (.inl ?_)
    rwa [(pageOf_eq_iff (hs.page y hy).1.aligned).mpr ⟨h1, by omega⟩]
  exact ⟨hc, hs.count, hs.page, hs.next_aligned, hs.next_ge, hs.next_le⟩

/-! ## Allocating -/

/-- `pg` is one of the `n` pages from `pa` on. -/
def InBlock (pa n pg : Nat) : Prop := ∃ i < n, pg = pa + i * 4096

@[simp] theorem inBlock_one : InBlock pa 1 pg ↔ pg = pa := by
  unfold InBlock
  constructor
  · rintro ⟨i, hi, rfl⟩
    omega
  · rintro rfl
    exact ⟨0, by omega, by omega⟩

theorem inBlock_pageOf {a : Nat} (h : pa % 4096 = 0) (ha : pa ≤ a) (ha' : a < pa + n * 4096) :
    InBlock pa n (pageOf a) :=
  ⟨(a - pa) / 4096, by omega, by unfold pageOf; omega⟩

/-- The `n` pages from `pa` on are taken from the allocator and zeroed. -/
structure AllocBlock (L : Layout) (o : Nat) (s : Phys) (F : List Nat) (pa n : Nat) (s' : Phys)
    (F' : List Nat) : Prop where
  grows : Grows L o s F s' F' fun _ => False
  was : ∀ pg, InBlock pa n pg → Avail L s F pg
  avail : ∀ pg, Avail L s' F' pg ↔ Avail L s F pg ∧ ¬InBlock pa n pg
  mem : s'.mem = memset s.mem pa 0 (n * 4096)

/-- The state after `track_alloc` of a block that the allocator has just given away. -/
theorem AllocBlock.of_track {t : Phys} (hs : AllocOk L s F) (ht : TrackOk L s F)
    (hok : AllocOk L t F') (htab : t.allocTable = s.allocTable) (hn : 0 < n)
    (hnext : s.nextPaddr ≤ t.nextPaddr)
    (hwas : ∀ pg, InBlock pa n pg → Avail L s F pg)
    (hav : ∀ pg, Avail L t F' pg ↔ Avail L s F pg ∧ ¬InBlock pa n pg)
    (hmem : t.mem = memset s.mem pa 0 (n * 4096)) :
    AllocBlock L o s F pa n (t.trackAlloc pa 1 o) F' := by
  have hfst : InBlock pa n pa := ⟨0, hn, by omega⟩
  have hp : IsPage L pa := hs.isPage (hwas pa hfst)
  have hav' : ∀ pg, Avail L (t.trackAlloc pa 1 o) F' pg ↔ Avail L s F pg ∧ ¬InBlock pa n pg := by
    intro pg
    rw [← hav pg]
    simp [Avail]
  have hok' : AllocOk L (t.trackAlloc pa 1 o) F' :=
    ⟨by simpa using hok.chain, by simpa using hok.count, by simpa using hok.page,
      by simpa using hok.next_aligned, by simpa using hok.next_ge, by simpa using hok.next_le⟩
  have hne : ∀ i, (s.allocTable i).used → (s.allocTable i).pa ≠ pa := fun i hi h =>
    (ht.taken i hi).2 (h ▸ hwas pa hfst)
  have hold : ∀ i, (s.allocTable i).used →
      (t.trackAlloc pa 1 o).allocTable i = s.allocTable i := by
    intro i hi
    rcases t.trackAlloc_cases pa 1 o with ⟨k, hk, he⟩ | ⟨_, he⟩
    · have : i ≠ k := fun h => hk (by rw [← h, htab]; exact hi)
      rw [he, ← htab]
      simp [this]
    · rw [he, htab]
  -- a used entry is an old one or the new one, and the new one is the only one of its page
  have hentry : ∀ i, ((t.trackAlloc pa 1 o).allocTable i).used →
      (t.trackAlloc pa 1 o).allocTable i = s.allocTable i ∨
        (t.trackAlloc pa 1 o).allocTable i = { used := true, pa, npages := 1, owner := o } ∧
        ∀ j, ((t.trackAlloc pa 1 o).allocTable j).used → j ≠ i →
          (t.trackAlloc pa 1 o).allocTable j = s.allocTable j := by
    intro i _
    rcases t.trackAlloc_cases pa 1 o with ⟨k, hk, he⟩ | ⟨_, he⟩
    · rw [he, ← htab]
      by_cases hik : i = k
      · subst hik
        exact .inr ⟨by simp, fun j _ hj => by simp [hj]⟩
      · exact .inl (by simp [hik])
    · exact .inl (by rw [he, htab])
  refine ⟨⟨hok', ⟨?_, ?_, ?_⟩, fun pg h => ((hav' pg).mp h).1, by simpa using hnext, ?_, hold, ?_⟩,
    hwas, hav', ?_⟩
  · intro i hi
    rcases hentry i hi with he | ⟨he, _⟩
    · rw [he] at hi ⊢
      exact ht.one i hi
    · rw [he]
  · intro i hi
    rcases hentry i hi with he | ⟨he, _⟩
    · rw [he] at hi ⊢
      exact ⟨(ht.taken i hi).1, fun h => (ht.taken i hi).2 ((hav' _).mp h).1⟩
    · rw [he]
      exact ⟨hp, fun h => ((hav' _).mp h).2 hfst⟩
  · intro i j hi hj hij
    rcases hentry i hi with he | ⟨he, hu⟩
    · rcases hentry j hj with he' | ⟨he', _⟩
      · rw [he] at hi hij; rw [he'] at hj hij
        exact ht.inj i j hi hj hij
      · rw [he] at hi hij; rw [he'] at hij
        exact absurd hij (hne i hi)
    · by_contra hne'
      have he' := hu j hj (Ne.symm hne')
      rw [he'] at hj hij; rw [he] at hij
      exact hne j hj hij.symm
  · intro a ha _
    rw [Phys.trackAlloc_mem, hmem]
    exact memset_outside fun h => ha (hwas _ (inBlock_pageOf hp.aligned h.1 h.2))
  · intro i hi
    rcases hentry i hi with he | ⟨he, _⟩
    · exact .inl he
    · rw [he]
      exact .inr ⟨rfl, hwas pa hfst⟩
  · rw [Phys.trackAlloc_mem, hmem]

/-- A block taken from the bump pointer. -/
theorem AllocBlock.of_bump {t : Phys} (hs : AllocOk L s F) (ht : TrackOk L s F) (hn : 0 < n)
    (hle : s.nextPaddr + n * 4096 ≤ L.freeRamEnd)
    (hmem : t.mem = memset s.mem s.nextPaddr 0 (n * 4096)) (hfl : t.freeList = s.freeList)
    (hnx : t.nextPaddr = s.nextPaddr + n * 4096) (hg : t.gFreePages = s.gFreePages)
    (htab : t.allocTable = s.allocTable) :
    AllocBlock L o s F s.nextPaddr n (t.trackAlloc s.nextPaddr 1 o) F := by
  have hal := hs.next_aligned
  have hge := hs.next_ge
  have hwas : ∀ pg, InBlock s.nextPaddr n pg → Avail L s F pg := by
    rintro pg ⟨i, hi, rfl⟩
    exact .inr ⟨⟨by omega, by omega, by omega⟩, by omega⟩
  refine .of_track hs ht ⟨?_, hg ▸ hs.count, fun pg h => ?_, by omega, by omega, by omega⟩ htab hn
    (by omega) hwas (fun pg => ?_) hmem
  · rw [hfl, hmem]
    refine hs.chain.congr fun y hy => load64_write_outside (.inl ?_)
    have := (hs.page y hy).2
    have := (hs.page y hy).1.aligned
    omega
  · have := hs.page pg h
    exact ⟨this.1, by omega⟩
  · unfold Avail InBlock
    constructor
    · rintro (h | ⟨h, h'⟩)
      · have := (hs.page pg h).2
        exact ⟨.inl h, by rintro ⟨i, hi, rfl⟩; omega⟩
      · exact ⟨.inr ⟨h, by omega⟩, by rintro ⟨i, hi, rfl⟩; omega⟩
    · rintro ⟨h | ⟨h, h'⟩, hb⟩
      · exact .inl h
      · have := h.aligned
        refine .inr ⟨h, ?_⟩
        by_contra hlt
        exact hb ⟨(pg - s.nextPaddr) / 4096, by omega, by omega⟩

/-- A page taken from the free list. -/
theorem AllocBlock.of_freeList {x : Nat} {xs : List Nat} {c : Nat} (hs : AllocOk L s (x :: xs))
    (ht : TrackOk L s (x :: xs)) :
    AllocBlock L o s (x :: xs) x 1
      (({ mem := memset s.mem x 0 4096, freeList := load64 s.mem x, nextPaddr := s.nextPaddr,
          gFreePages := dec64 s.gFreePages, allocTable := s.allocTable,
          allocTableCount := c } : Phys).trackAlloc x 1 o) xs := by
  obtain ⟨_, _, hxs⟩ := hs.chain
  have hp := hs.page x (by simp)
  have hxs' : x ∉ xs := (List.nodup_cons.mp hs.chain.nodup).1
  refine .of_track hs ht ⟨?_, ?_, fun pg h => hs.page pg (by simp [h]), hs.next_aligned, hs.next_ge,
    hs.next_le⟩ rfl (by omega) (Nat.le_refl _) (fun pg h => .inl (by simp_all)) (fun pg => ?_) rfl
  · refine hxs.congr fun y hy => load64_write_outside ?_
    have := (hs.page y (by simp [hy])).1.aligned
    have := hp.1.aligned
    have : y ≠ x := fun h => hxs' (h ▸ hy)
    omega
  · have hlen := hs.length_le
    have := hs.count
    simp only [List.length_cons] at this hlen
    simp only [this]
    exact dec64_succ (by omega)
  · simp only [Avail, List.mem_cons, inBlock_one]
    constructor
    · rintro (h | h)
      · exact ⟨.inl (.inr h), fun he => hxs' (he ▸ h)⟩
      · exact ⟨.inr h, fun he => by have := hp.2; have := h.2; omega⟩
    · rintro ⟨(h | h) | h, hne⟩
      · exact absurd h hne
      · exact .inl h
      · exact .inr h

/-- `alloc_pages(n)` hands out `n` available pages. -/
theorem allocPages_block (hs : AllocOk L s F) (ht : TrackOk L s F) (hn : 0 < n)
    (hlt : s.nextPaddr + n * 4096 < 2 ^ 64) (h : s.allocPages L o n = .ok (pa, s')) :
    ∃ F', AllocBlock L o s F pa n s' F' := by
  have hmod : (s.nextPaddr + n * 4096) % 2 ^ 64 = s.nextPaddr + n * 4096 := Nat.mod_eq_of_lt hlt
  by_cases h1 : n = 1
  · subst h1
    cases F with
    | nil =>
        have h0 : s.freeList = 0 := hs.chain
        simp only [Phys.allocPages, Phys.allocFreeList, h0, ↓reduceIte, ne_eq, not_true_eq_false,
          ite_error_eq_ok, Except.ok.injEq, Prod.mk.injEq, not_lt, gt_iff_lt] at h
        obtain ⟨hle, rfl, rfl⟩ := h
        rw [Nat.one_mul] at hmod
        rw [hmod] at hle ⊢
        exact ⟨[], .of_bump hs ht hn (by omega) rfl h0.symm rfl rfl rfl⟩
    | cons x xs =>
        obtain ⟨hx, hx0, _⟩ := hs.chain
        have hx0' : s.freeList ≠ 0 := hx ▸ hx0
        simp only [Phys.allocPages, Phys.allocFreeList, hx0', ↓reduceIte, ne_eq, not_false_eq_true,
          Except.ok.injEq, Prod.mk.injEq] at h
        obtain ⟨rfl, rfl⟩ := h
        rw [hx]
        exact ⟨xs, .of_freeList hs ht⟩
  · simp only [Phys.allocPages, h1, ↓reduceIte, ite_error_eq_ok, Except.ok.injEq, Prod.mk.injEq,
      not_lt, gt_iff_lt] at h
    obtain ⟨hle, rfl, rfl⟩ := h
    rw [hmod] at hle ⊢
    exact ⟨F, .of_bump hs ht hn hle (by rw [Nat.mod_eq_of_lt (by omega)]) rfl rfl rfl rfl⟩

theorem AllocOk.next_lt (hs : AllocOk L s F) : s.nextPaddr < 0xA0000000 := by
  have := hs.next_le
  have := L.freeRamEnd_lt
  omega

/-- `alloc_pages(1)` hands out an available page. -/
theorem allocPages_one (hs : AllocOk L s F) (ht : TrackOk L s F)
    (h : s.allocPages L o 1 = .ok (pa, s')) : ∃ F', AllocBlock L o s F pa 1 s' F' :=
  allocPages_block hs ht Nat.one_pos (by have := hs.next_lt; omega) h

/-! ## Room -/

theorem Phys.allocPages_of_freeList (h : s.freeList ≠ 0) :
    s.allocPages L o 1 = .ok (s.freeList,
      { s with
        freeList := load64 s.mem s.freeList
        gFreePages := dec64 s.gFreePages
        mem := memset s.mem s.freeList 0 4096 }.trackAlloc s.freeList 1 o) := by
  simp only [allocPages, allocFreeList, h, ↓reduceIte, ne_eq, not_false_eq_true]

theorem Phys.allocPages_of_bump (hn : n = 1 → s.freeList = 0)
    (hle : s.nextPaddr + n * 4096 ≤ L.freeRamEnd) :
    s.allocPages L o n = .ok (s.nextPaddr,
      { s with
        nextPaddr := s.nextPaddr + n * 4096
        mem := memset s.mem s.nextPaddr 0 (n * 4096) }.trackAlloc s.nextPaddr 1 o) := by
  have hlt := L.freeRamEnd_lt
  have hmod : (s.nextPaddr + n * 4096) % 2 ^ 64 = s.nextPaddr + n * 4096 :=
    Nat.mod_eq_of_lt (by omega)
  by_cases h1 : n = 1
  · subst h1
    have hmod' : (s.nextPaddr + 4096) % 2 ^ 64 = s.nextPaddr + 4096 := by omega
    have hle' : ¬s.nextPaddr + 4096 > L.freeRamEnd := by omega
    simp only [allocPages, allocFreeList, hn rfl, ↓reduceIte, ne_eq, not_true_eq_false, hmod', hle',
      Nat.one_mul]
  · have hmod' : n * 4096 % 2 ^ 64 = n * 4096 := Nat.mod_eq_of_lt (by omega)
    have hle' : ¬s.nextPaddr + n * 4096 > L.freeRamEnd := by omega
    simp only [allocPages, h1, ↓reduceIte, hmod, hmod', hle']

/-- The number of single pages that can still be allocated. -/
def Phys.room (L : Layout) (s : Phys) : Nat := s.gFreePages + (L.freeRamEnd - s.nextPaddr) / 4096

/-- While there is room, `alloc_pages(1)` succeeds and takes one page of it. -/
theorem AllocOk.allocPages_room (hs : AllocOk L s F) (h : 1 ≤ s.room L) :
    ∃ pa s', s.allocPages L o 1 = .ok (pa, s') ∧ s'.room L + 1 = s.room L := by
  have hlen := hs.length_le
  have hcount := hs.count
  have hle := hs.next_le
  have hal := hs.next_aligned
  have hal' := L.freeRamEnd_aligned
  unfold Phys.room at h
  cases F with
  | nil =>
      have h0 : s.freeList = 0 := hs.chain
      simp only [List.length_nil] at hcount
      refine ⟨_, _, Phys.allocPages_of_bump (fun _ => h0) (by omega), ?_⟩
      simp only [Phys.room, Phys.trackAlloc_nextPaddr, Phys.trackAlloc_gFreePages]
      omega
  | cons x xs =>
      obtain ⟨hx, hx0, _⟩ := hs.chain
      refine ⟨_, _, Phys.allocPages_of_freeList (hx ▸ hx0), ?_⟩
      simp only [List.length_cons] at hcount hlen
      have : dec64 s.gFreePages = xs.length := by rw [hcount, dec64_succ (by omega)]
      simp only [Phys.room, Phys.trackAlloc_nextPaddr, Phys.trackAlloc_gFreePages]
      omega

namespace AllocBlock

variable (h : AllocBlock L o s F pa 1 s' F')
include h

theorem was_one : Avail L s F pa := h.was pa (inBlock_one.mpr rfl)

theorem not_avail : ¬Avail L s' F' pa := fun hp => ((h.avail pa).mp hp).2 (inBlock_one.mpr rfl)

theorem avail_one (pg : Nat) : Avail L s' F' pg ↔ Avail L s F pg ∧ pg ≠ pa := by
  rw [h.avail, inBlock_one]

end AllocBlock

end RiscvOs
