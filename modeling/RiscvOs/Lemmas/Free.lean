import RiscvOs.Lemmas.Alloc

/-!
# Giving pages back

`Frees` is what a step that only frees does to a state: exactly the pages of `D` become available, and
only they and the pages of `W` are written.
-/

namespace RiscvOs

open ByteMem LinkedList Outcome

/-- From `s` to `s'` the allocated pages of `D` go back to the allocator, each once. -/
structure Frees (L : Layout) (s : Phys) (F : List Nat) (s' : Phys) (F' : List Nat)
    (D W : Nat → Prop) : Prop where
  ok : AllocOk L s' F'
  track : TrackOk L s' F'
  avail : ∀ pg, Avail L s' F' pg ↔ Avail L s F pg ∨ D pg
  was : ∀ pg, D pg → IsPage L pg ∧ ¬Avail L s F pg
  mem : ∀ a, ¬D (pageOf a) → ¬W (pageOf a) → s'.mem a = s.mem a
  next : s'.nextPaddr = s.nextPaddr
  table : ∀ i, (s'.allocTable i).used → s'.allocTable i = s.allocTable i
  kept : ∀ i, (s.allocTable i).used → ¬D (s.allocTable i).pa → s'.allocTable i = s.allocTable i
  list : ∃ l, F' = l ++ F ∧ ∀ pg, pg ∈ l ↔ D pg

variable {L : Layout} {s s' s'' : Phys} {F F' F'' : List Nat} {pa : Nat} {D D' W W' : Nat → Prop}

/-- The room grows by the pages given back. -/
theorem Frees.room_le (h : Frees L s F s' F' D W) (hs : AllocOk L s F) : s.room L ≤ s'.room L := by
  obtain ⟨l, hl, _⟩ := h.list
  have h1 := h.ok.count
  have h2 := hs.count
  rw [hl, List.length_append] at h1
  unfold Phys.room
  rw [h.next]
  omega

theorem Frees.refl (hs : AllocOk L s F) (ht : TrackOk L s F) :
    Frees L s F s F (fun _ => False) W :=
  ⟨hs, ht, fun _ => by simp, fun _ h => h.elim, fun _ _ _ => rfl, rfl, fun _ _ => rfl,
    fun _ _ _ => rfl, [], rfl, by simp⟩

theorem Frees.trans (h : Frees L s F s' F' D W) (h' : Frees L s' F' s'' F'' D' W') :
    Frees L s F s'' F'' (fun pg => D pg ∨ D' pg) fun pg => W pg ∨ W' pg where
  ok := h'.ok
  track := h'.track
  avail pg := by rw [h'.avail, h.avail, or_assoc]
  was pg hd := by
    rcases hd with hd | hd
    · exact h.was pg hd
    · exact ⟨(h'.was pg hd).1, fun ha => (h'.was pg hd).2 ((h.avail pg).mpr (.inl ha))⟩
  mem a hd hw := by
    rw [not_or] at hd hw
    rw [h'.mem a hd.2 hw.2, h.mem a hd.1 hw.1]
  next := h'.next.trans h.next
  table i hi := by
    have he := h'.table i hi
    rw [he, h.table i (he ▸ hi)]
  kept i hi hd := by
    rw [not_or] at hd
    have he := h.kept i hi hd.1
    rw [h'.kept i (he ▸ hi) (he ▸ hd.2), he]
  list := by
    obtain ⟨l, rfl, hl⟩ := h.list
    obtain ⟨l', rfl, hl'⟩ := h'.list
    refine ⟨l' ++ l, by simp, fun pg => ?_⟩
    rw [List.mem_append, hl, hl', or_comm]

theorem Frees.congr (h : Frees L s F s' F' D W) (D' W' : Nat → Prop) (hD : ∀ pg, D pg ↔ D' pg)
    (hW : ∀ pg, W pg → D' pg ∨ W' pg) : Frees L s F s' F' D' W' := by
  obtain rfl : D = D' := funext fun pg => propext (hD pg)
  exact { h with mem := fun a hd hw => h.mem a hd fun hw' => (hW _ hw').elim hd hw }

/-- A step that only writes memory, and no available page. -/
theorem Frees.write (hs : AllocOk L s F) (ht : TrackOk L s F) {m : Mem}
    (hm : ∀ a, ¬W (pageOf a) → m a = s.mem a) (hW : ∀ pg, W pg → ¬Avail L s F pg) :
    Frees L s F { s with mem := m } F (fun _ => False) W := by
  have h := Grows.write (o := 0) hs ht hm hW
  exact ⟨h.ok, h.track, fun _ => by simp [Avail], fun _ h => h.elim, fun a _ hw => hm a hw, rfl,
    fun _ _ => rfl, fun _ _ _ => rfl, [], rfl, by simp⟩

theorem Phys.trackFree_used {s : Phys} {pa : Nat} {i : Fin maxTrackedAllocs}
    (hi : ((s.trackFree pa 1).allocTable i).used) :
    (s.trackFree pa 1).allocTable i = s.allocTable i := by
  rcases s.trackFree_cases pa 1 with ⟨k, _, _, _, he⟩ | ⟨_, he⟩
  · rw [he] at hi ⊢
    by_cases hik : i = k
    · subst hik
      simp at hi
    · simp [hik]
  · rw [he]

/-- `track_free` of a page removes its entry and no other. -/
theorem TrackOk.trackFree (ht : TrackOk L s F) (i : Fin maxTrackedAllocs)
    (hi : (s.allocTable i).used) :
    ((s.trackFree pa 1).allocTable i).used ↔ (s.allocTable i).pa ≠ pa := by
  rcases s.trackFree_cases pa 1 with ⟨k, hk, hp, _, he⟩ | ⟨hn, he⟩
  · rw [he]
    by_cases hik : i = k
    · subst hik
      simp [hp]
    · have : (s.allocTable i).pa ≠ pa := fun h => hik (ht.inj i k hi hk (h.trans hp.symm))
      simp [hik, hi, this]
  · rw [he]
    exact ⟨fun _ h => hn i hi h (ht.one i hi), fun _ => hi⟩

@[simp] theorem Phys.freePage_allocTable (s : Phys) (pa : Nat) :
    (s.freePage pa).allocTable = (s.trackFree pa 1).allocTable := by
  simp only [freePage]

@[simp] theorem Phys.freePage_nextPaddr (s : Phys) (pa : Nat) :
    (s.freePage pa).nextPaddr = s.nextPaddr := by
  simp [freePage]

/-- `free_page` of an allocated page. -/
theorem Frees.freePage (hs : AllocOk L s F) (ht : TrackOk L s F) (hp : IsPage L pa)
    (hpa : ¬Avail L s F pa) : Frees L s F (s.freePage pa) (pa :: F) (· = pa) fun _ => False := by
  have hmem : (s.freePage pa).mem = store64 s.mem pa s.freeList := by simp [Phys.freePage]
  have hav : ∀ pg, Avail L (s.freePage pa) (pa :: F) pg ↔ Avail L s F pg ∨ pg = pa := by
    intro pg
    simp only [Avail, Phys.freePage, Phys.trackFree_nextPaddr, List.mem_cons]
    tauto
  have hlt : pa < s.nextPaddr := by
    by_contra h
    exact hpa (.inr ⟨hp, by omega⟩)
  have hused : ∀ i, ((s.freePage pa).allocTable i).used →
      (s.freePage pa).allocTable i = s.allocTable i := by
    simp only [Phys.freePage_allocTable]
    exact fun i hi => Phys.trackFree_used hi
  refine ⟨⟨?_, ?_, ?_, ?_, ?_, ?_⟩, ⟨?_, ?_, ?_⟩, hav, ?_, ?_, ?_, hused, ?_, ?_⟩
  · rw [hmem]
    refine hs.chain.push hp.ne_zero (load64_store64_of_lt hs.freeList_lt) fun y hy => ?_
    have hy' := (hs.page y hy).1.aligned
    have hpa' := hp.aligned
    have : y ≠ pa := fun h => hpa (.inl (h ▸ hy))
    exact load64_store64_outside (by omega)
  · have := hs.length_le
    simp only [Phys.freePage, Phys.trackFree_gFreePages, hs.count, List.length_cons]
    exact inc64_of_lt (by omega)
  · intro pg hpg
    simp only [Phys.freePage, Phys.trackFree_nextPaddr]
    rcases List.mem_cons.mp hpg with rfl | hpg
    · exact ⟨hp, hlt⟩
    · exact hs.page pg hpg
  · simpa [Phys.freePage] using hs.next_aligned
  · simpa [Phys.freePage] using hs.next_ge
  · simpa [Phys.freePage] using hs.next_le
  · intro i hi
    have he := hused i hi
    rw [he] at hi ⊢
    exact ht.one i hi
  · intro i hi
    have he := hused i hi
    have hne := (ht.trackFree i (he ▸ hi)).mp (Phys.freePage_allocTable s pa ▸ hi)
    rw [he] at hi ⊢
    refine ⟨(ht.taken i hi).1, fun h => ?_⟩
    exact ((hav _).mp h).elim (ht.taken i hi).2 hne
  · intro i j hi hj hij
    have hi' := hused i hi
    have hj' := hused j hj
    rw [hi'] at hi hij; rw [hj'] at hj hij
    exact ht.inj i j hi hj hij
  · rintro pg rfl
    exact ⟨hp, hpa⟩
  · intro a ha _
    rw [hmem]
    refine store64_outside fun h => ha ((pageOf_eq_iff hp.aligned).mpr ⟨h.1, by omega⟩)
  · simp [Phys.freePage]
  · intro i hi hne
    refine hused i ?_
    rw [Phys.freePage_allocTable]
    exact (ht.trackFree i hi).mpr hne
  · exact ⟨[pa], rfl, by simp⟩

/-! ## Sequences of `free_page` -/

/-- From `s` the pages of `ps` are pushed on the free list, the last of them first, each once. In between only
pages of `W` are written, and none that is on the list already. -/
inductive Pushes (W : Nat → Prop) (s : Phys) : Phys → List Nat → Prop
  | refl : Pushes W s s []
  | push {s' : Phys} {ps : List Nat} {pg : Nat} :
      Pushes W s s' ps → pg % 4096 = 0 → pg ∉ ps → Pushes W s (s'.freePage pg) (pg :: ps)
  | write {s' : Phys} {ps : List Nat} {m : Mem} :
      Pushes W s s' ps → (∀ a, W (pageOf a) → pageOf a ∈ ps → m a = s'.mem a) →
        (∀ a, ¬W (pageOf a) → m a = s'.mem a) → Pushes W s { s' with mem := m } ps

variable {ps qs : List Nat}

theorem Phys.freePage_mem (s : Phys) (pa : Nat) : (s.freePage pa).mem = store64 s.mem pa s.freeList := by
  simp [Phys.freePage]

theorem Phys.freePage_outside {a : Nat} (hp : pa % 4096 = 0) (ha : pageOf a ≠ pa) :
    (s.freePage pa).mem a = s.mem a := by
  rw [Phys.freePage_mem]
  exact store64_outside fun h => ha ((pageOf_eq_iff hp).mpr ⟨h.1, by omega⟩)

theorem Pushes.nodup (h : Pushes W s s' ps) : ps.Nodup := by
  induction h with
  | refl => exact List.nodup_nil
  | push _ _ hn ih => exact List.nodup_cons.mpr ⟨hn, ih⟩
  | write _ _ _ ih => exact ih

theorem Pushes.mem {a : Nat} (h : Pushes W s s' ps) (hp : pageOf a ∉ ps) (hw : ¬W (pageOf a)) :
    s'.mem a = s.mem a := by
  induction h with
  | refl => rfl
  | push _ hal _ ih =>
      rw [List.mem_cons, not_or] at hp
      rw [Phys.freePage_outside hal hp.1, ih hp.2]
  | write _ _ hm ih => exact (hm a hw).trans (ih hp)

theorem Pushes.mono (h : Pushes W s s' ps) (hW : ∀ pg, W pg → W' pg) : Pushes W' s s' ps := by
  induction h with
  | refl => exact .refl
  | push _ hal hn ih => exact ih.push hal hn
  | @write t qs m _ hp hm ih =>
      refine ih.write (fun a _ hq => ?_) fun a ha => hm a fun hw => ha (hW _ hw)
      by_cases hw : W (pageOf a)
      · exact hp a hw hq
      · exact hm a hw

/-- A second sequence that neither pushes nor writes a page of the first. -/
theorem Pushes.trans (h : Pushes W s s' ps) (h' : Pushes W' s' s'' qs) (hq : ∀ pg ∈ qs, pg ∉ ps)
    (hw : ∀ pg, W' pg → pg ∉ ps) : Pushes (fun pg => W pg ∨ W' pg) s s'' (qs ++ ps) := by
  induction h' with
  | refl => exact h.mono fun _ => .inl
  | @push t qs pg _ hal hn ih =>
      have ih := ih fun pg hpg => hq pg (List.mem_cons_of_mem _ hpg)
      refine ih.push hal fun hmem => ?_
      exact (List.mem_append.mp hmem).elim hn (hq pg (List.mem_cons_self ..))
  | write _ hp hm ih =>
      refine (ih hq).write (fun a _ hmem => ?_) fun a ha => hm a fun hw' => ha (.inr hw')
      by_cases ha : W' (pageOf a)
      · exact hp a ha ((List.mem_append.mp hmem).resolve_right (hw _ ha))
      · exact hm a ha

/-- The free list afterwards: the pages pushed, each with its link in its first word, and then the old list. -/
theorem Pushes.segment (h : Pushes W s s' ps) (hps : ∀ pg ∈ ps, pg < 2 ^ 64) (hl : s.freeList < 2 ^ 64)
    (hal : ∀ pg ∈ ps, pg % 4096 = 0) : Segment (load64 s'.mem) s'.freeList ps s.freeList := by
  induction h with
  | refl => rfl
  | @push t qs pg _ _ hn ih =>
      have hqs : ∀ y ∈ qs, y < 2 ^ 64 := fun y hy => hps y (List.mem_cons_of_mem _ hy)
      have hseg := ih hqs fun y hy => hal y (List.mem_cons_of_mem _ hy)
      have hhead : t.freeList < 2 ^ 64 := hseg.head hqs hl
      refine ⟨rfl, ?_⟩
      rw [Phys.freePage_mem, load64_store64_of_lt hhead]
      refine hseg.congr fun y hy => load64_store64_outside ?_
      have hy' := hal y (List.mem_cons_of_mem _ hy)
      have hpg := hal pg (List.mem_cons_self ..)
      have : y ≠ pg := fun he => hn (he ▸ hy)
      omega
  | write _ hq hm ih =>
      refine (ih hps hal).congr fun y hy => load64_congr fun x h1 h2 => ?_
      have hpage : pageOf x = y := (pageOf_eq_iff (hal y hy)).mpr ⟨h1, by omega⟩
      by_cases hw : W (pageOf x)
      · exact hq x hw (hpage ▸ hy)
      · exact hm x hw

/-- `g_free_pages` counts the pages pushed, in 64 bits. -/
theorem Pushes.count (h : Pushes W s s' ps) :
    s'.gFreePages % 2 ^ 64 = (s.gFreePages + ps.length) % 2 ^ 64 := by
  induction h with
  | refl => rfl
  | push _ _ _ ih =>
      simp only [Phys.freePage, Phys.trackFree_gFreePages, inc64, List.length_cons]
      omega
  | write _ _ _ ih => exact ih

/-- A sequence that pushes allocated pages and writes no available one. -/
theorem Pushes.frees (h : Pushes W s s' ps) (hs : AllocOk L s F) (ht : TrackOk L s F)
    (hp : ∀ pg ∈ ps, IsPage L pg ∧ ¬Avail L s F pg) (hW : ∀ pg, W pg → ¬Avail L s F pg) :
    Frees L s F s' (ps ++ F) (· ∈ ps) W := by
  induction h with
  | refl => exact (Frees.refl hs ht).congr _ _ (fun pg => by simp) fun _ h => .inr h
  | @push t qs pg _ _ hn ih =>
      have ih := ih fun pg hpg => hp pg (List.mem_cons_of_mem _ hpg)
      have hpg := hp pg (List.mem_cons_self ..)
      have hna : ¬Avail L t (qs ++ F) pg := fun hav => ((ih.avail pg).mp hav).elim hpg.2 hn
      refine (ih.trans (.freePage ih.ok ih.track hpg.1 hna)).congr _ _ (fun pg => ?_) fun pg hw => .inr ?_
      · rw [List.mem_cons, or_comm]
      · exact hw.elim id False.elim
  | @write t qs m _ hq hm ih =>
      have ih := ih hp
      have hw : Frees L t (qs ++ F) { t with mem := m } (qs ++ F) (fun _ => False)
          fun pg => W pg ∧ pg ∉ qs := by
        refine .write ih.ok ih.track (fun a ha => ?_) fun pg hpg hav => ?_
        · by_cases hwa : W (pageOf a)
          · exact hq a hwa (not_not.mp fun hn => ha ⟨hwa, hn⟩)
          · exact hm a hwa
        · exact ((ih.avail pg).mp hav).elim (hW pg hpg.1) hpg.2
      refine (ih.trans hw).congr _ _ (fun pg => by simp) fun pg h => .inr ?_
      exact h.elim id And.left

/-! ## Freeing a block -/

/-- A page without an entry in the table: `track_free` changes nothing. -/
theorem Phys.trackFree_of_none {s : Phys} {pa : Nat}
    (h : ∀ i, (s.allocTable i).used → (s.allocTable i).pa ≠ pa) : s.trackFree pa 1 = s := by
  rcases s.trackFree_cases pa 1 with ⟨i, hi, hp, _⟩ | ⟨_, he⟩
  · exact absurd hp (h i hi)
  · exact he

theorem TrackOk.trackFree_avail (ht : TrackOk L s F) (hpa : Avail L s F pa) :
    s.trackFree pa 1 = s :=
  Phys.trackFree_of_none fun i hi h => (ht.taken i hi).2 (by rw [h]; exact hpa)

/-- `free_pages_range` calls `track_free` for the first page of the block in every round; in the first
round the call of `free_page` finds the entry removed already. -/
theorem TrackOk.freePage_trackFree (ht : TrackOk L s F) :
    (s.trackFree pa 1).freePage pa = s.freePage pa := by
  have hnone : (s.trackFree pa 1).trackFree pa 1 = s.trackFree pa 1 := by
    refine Phys.trackFree_of_none fun i hi => ?_
    have he := Phys.trackFree_used hi
    have hu : (s.allocTable i).used := by rw [← he]; exact hi
    rw [he]
    exact (ht.trackFree i hu).mp hi
  simp only [Phys.freePage, hnone]

theorem Frees.freePagesFrom {i k : Nat} (hs : AllocOk L s F) (ht : TrackOk L s F)
    (hi : 0 < i → Avail L s F pa)
    (hp : ∀ j, i ≤ j → j < i + k → IsPage L (pa + j * 4096) ∧ ¬Avail L s F (pa + j * 4096)) :
    ∃ F', Frees L s F (s.freePagesFrom pa i k) F'
      (fun pg => ∃ j, i ≤ j ∧ j < i + k ∧ pg = pa + j * 4096) fun _ => False := by
  induction k generalizing s F i with
  | zero => exact ⟨F, (Frees.refl hs ht).congr _ _ (fun pg => by simp; omega) fun _ h => .inr h⟩
  | succ k ih =>
      obtain ⟨hpi, hai⟩ := hp i (Nat.le_refl _) (by omega)
      have hmod : (pa + i * 4096) % 2 ^ 64 = pa + i * 4096 := by
        have := hpi.lt_64
        omega
      have hstep : (s.trackFree pa 1).freePage (pa + i * 4096) = s.freePage (pa + i * 4096) := by
        by_cases h0 : i = 0
        · subst h0
          simpa using ht.freePage_trackFree
        · have hpa : Avail L s F pa := hi (by omega)
          rw [ht.trackFree_avail hpa]
      have h1 := Frees.freePage hs ht hpi hai
      have hav : Avail L (s.freePage (pa + i * 4096)) ((pa + i * 4096) :: F) pa := by
        by_cases h0 : i = 0
        · subst h0
          exact .inl (by simp)
        · exact (h1.avail pa).mpr (.inl (hi (by omega)))
      obtain ⟨F', h2⟩ := ih (i := i + 1) h1.ok h1.track (fun _ => hav) fun j hj hj' => by
        obtain ⟨hpj, haj⟩ := hp j (by omega) (by omega)
        exact ⟨hpj, fun h => ((h1.avail _).mp h).elim haj (by omega)⟩
      refine ⟨F', ?_⟩
      rw [Phys.freePagesFrom, hmod, hstep]
      refine (h1.trans h2).congr _ _ (fun pg => ?_) fun _ h => by simp at h
      constructor
      · rintro (rfl | ⟨j, h, h', rfl⟩)
        · exact ⟨i, Nat.le_refl _, by omega, rfl⟩
        · exact ⟨j, by omega, by omega, rfl⟩
      · rintro ⟨j, h, h', rfl⟩
        by_cases he : j = i
        · exact .inl (by rw [he])
        · exact .inr ⟨j, by omega, by omega, rfl⟩

/-- `free_pages_range` of allocated pages. -/
theorem Frees.freePagesRange {n : Nat} (hs : AllocOk L s F) (ht : TrackOk L s F)
    (hp : ∀ pg, InBlock pa n pg → IsPage L pg ∧ ¬Avail L s F pg) :
    ∃ F', Frees L s F (s.freePagesRange pa n) F' (InBlock pa n) fun _ => False := by
  obtain ⟨F', h⟩ := Frees.freePagesFrom (i := 0) (k := n) hs ht (by omega)
    fun j _ hj => hp _ ⟨j, by omega, rfl⟩
  refine ⟨F', h.congr _ _ (fun pg => ?_) fun _ h => by simp at h⟩
  simp [InBlock]

end RiscvOs
