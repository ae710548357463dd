import RiscvOs.Theorems.Reclaim

/-!
# The counter of the tracker

`alloc_table_count` is said to be the number of active entries. `track_alloc` and `track_free` keep it so, for any
table. The sweep over the allocations of a pid counts an entry twice when its own call of `free_page` finds it.
-/

namespace RiscvOs

open Lts

/-- A call that changes the table. -/
inductive TrackerCall
  | trackAlloc (pa npages owner : Nat)
  | freePage (pa : Nat)
  | freePagesRange (pa npages : Nat)
  | freeAllTrackedForPid (pid : Nat)
  deriving Repr, DecidableEq

inductive TrackerStep : Phys → TrackerCall → Phys → Prop
  | trackAlloc {s : Phys} {pa npages owner : Nat} (hpa : pa < 2 ^ 64) :
      TrackerStep s (.trackAlloc pa npages owner) (s.trackAlloc pa npages owner)
  | freePage {s : Phys} {pa : Nat} : TrackerStep s (.freePage pa) (s.freePage pa)
  | freePagesRange {s : Phys} {pa npages : Nat} :
      TrackerStep s (.freePagesRange pa npages) (s.freePagesRange pa npages)
  | freeAllTrackedForPid {s : Phys} {pid : Nat} :
      TrackerStep s (.freeAllTrackedForPid pid) (s.freeAllTrackedForPid pid)

/-- The entries in use. -/
def Phys.usedEntries (s : Phys) : Finset (Fin maxTrackedAllocs) := Finset.univ.filter fun i => (s.allocTable i).used

/-- The counter is the number of the entries in use. -/
def Phys.CountExact (s : Phys) : Prop := s.allocTableCount = s.usedEntries.card

/-- In round `i` of the sweep, the entry is the first one that `track_free` finds for its page. -/
def Phys.SelfFreed (pid : Nat) (s : Phys) (i : Fin maxTrackedAllocs) : Prop :=
  Tracked s pid i ∧ s.findTrack (fun e => e.used && e.pa == (s.allocTable i).pa && e.npages == 1) = some i

/-- No round of the call is such a round; `l` are the rounds before it. -/
def Phys.Quiet (s : Phys) : TrackerCall → Prop
  | .freeAllTrackedForPid pid => ∀ l i l', List.finRange maxTrackedAllocs = l ++ i :: l' →
      ¬Phys.SelfFreed pid (l.foldl (Phys.freeTracked pid) s) i
  | _ => True

/-- The counter has been decremented `d` times too often. -/
structure Counted (d : Nat) (s : Phys) : Prop where
  lt : s.allocTableCount < 2 ^ 64
  off : (s.allocTableCount + d) % 2 ^ 64 = s.usedEntries.card
  pa : ∀ i, (s.allocTable i).pa < 2 ^ 64

variable {s s' : Phys} {pa npages owner pid d k : Nat} {i : Fin maxTrackedAllocs} {e : AllocTrack} {c : TrackerCall}
  {l : List TrackerCall} {m : ByteMem.Mem}

theorem Phys.card_usedEntries (s : Phys) : s.usedEntries.card ≤ maxTrackedAllocs :=
  (Finset.card_filter_le _ _).trans_eq (by rw [Finset.card_univ, Fintype.card_fin])

theorem Counted.exact_iff (h : Counted d s) (hd : d ≤ maxTrackedAllocs) : s.CountExact ↔ d = 0 := by
  have hlt := h.lt
  have hoff := h.off
  have hcard := s.card_usedEntries
  have hmax : maxTrackedAllocs = 8192 := rfl
  unfold Phys.CountExact
  omega

/-! ## One entry -/

theorem mem_usedEntries : i ∈ s.usedEntries ↔ (s.allocTable i).used := by simp [Phys.usedEntries]

/-- The table gets one more entry. -/
theorem card_usedEntries_insert (hi : ¬(s.allocTable i).used) (he : e.used)
    (ht : s'.allocTable = Function.update s.allocTable i e) : s'.usedEntries.card = s.usedEntries.card + 1 := by
  have hset : s'.usedEntries = insert i s.usedEntries := by
    ext j
    rw [mem_usedEntries, Finset.mem_insert, mem_usedEntries, ht, Function.update_apply]
    split <;> simp_all
  rw [hset, Finset.card_insert_of_notMem (mem_usedEntries.not.mpr hi)]

/-- An entry leaves the table. -/
theorem card_usedEntries_erase (hi : (s.allocTable i).used) (he : e.used = false)
    (ht : s'.allocTable = Function.update s.allocTable i e) : s.usedEntries.card = s'.usedEntries.card + 1 := by
  have hset : s'.usedEntries = s.usedEntries.erase i := by
    ext j
    rw [mem_usedEntries, Finset.mem_erase, mem_usedEntries, ht, Function.update_apply]
    split <;> simp_all
  rw [hset, Finset.card_erase_add_one (mem_usedEntries.mpr hi)]

/-- An unused entry is cleared. -/
theorem usedEntries_same (hi : ¬(s.allocTable i).used) (he : e.used = false)
    (ht : s'.allocTable = Function.update s.allocTable i e) : s'.usedEntries = s.usedEntries := by
  ext j
  rw [mem_usedEntries, mem_usedEntries, ht, Function.update_apply]
  split <;> simp_all

theorem pa_update (h : ∀ i, (s.allocTable i).pa < 2 ^ 64) (he : e.pa < 2 ^ 64)
    (ht : s'.allocTable = Function.update s.allocTable i e) (j : Fin maxTrackedAllocs) :
    (s'.allocTable j).pa < 2 ^ 64 := by
  rw [ht, Function.update_apply]
  split
  · exact he
  · exact h j

/-! ## The calls -/

theorem Counted.trackAlloc (h : Counted d s) (hpa : pa < 2 ^ 64) : Counted d (s.trackAlloc pa npages owner) := by
  rcases s.trackAlloc_cases pa npages owner with ⟨i, hi, he⟩ | ⟨_, he⟩
  · have ht : (s.trackAlloc pa npages owner).allocTable =
        Function.update s.allocTable i { used := true, pa, npages, owner } := by rw [he]
    have hc : (s.trackAlloc pa npages owner).allocTableCount = inc64 s.allocTableCount := by rw [he]
    have hcard := card_usedEntries_insert hi rfl ht
    have hle := (s.trackAlloc pa npages owner).card_usedEntries
    have hoff := h.off
    have hmax : maxTrackedAllocs = 8192 := rfl
    refine ⟨?_, ?_, pa_update h.pa hpa ht⟩ <;> rw [hc] <;> unfold inc64 <;> omega
  · rw [he]
    exact h

theorem Counted.trackFree (h : Counted d s) : Counted d (s.trackFree pa npages) := by
  rcases s.trackFree_cases pa npages with ⟨i, hi, _, _, he⟩ | ⟨_, he⟩
  · have ht : (s.trackFree pa npages).allocTable =
        Function.update s.allocTable i { s.allocTable i with used := false } := by rw [he]
    have hc : (s.trackFree pa npages).allocTableCount = dec64 s.allocTableCount := by rw [he]
    have hcard := card_usedEntries_erase hi rfl ht
    have hle := s.card_usedEntries
    have hoff := h.off
    have hmax : maxTrackedAllocs = 8192 := rfl
    have hpa : ({ s.allocTable i with used := false } : AllocTrack).pa < 2 ^ 64 := h.pa i
    refine ⟨?_, ?_, pa_update h.pa hpa ht⟩ <;> rw [hc] <;> unfold dec64 <;> omega
  · rw [he]
    exact h

theorem Counted.congr (h : Counted d s) (ht : s'.allocTable = s.allocTable)
    (hc : s'.allocTableCount = s.allocTableCount) : Counted d s' := by
  have hset : s'.usedEntries = s.usedEntries := by rw [Phys.usedEntries, Phys.usedEntries, ht]
  refine ⟨hc ▸ h.lt, ?_, fun i => by rw [ht]; exact h.pa i⟩
  rw [hset, hc]
  exact h.off

theorem Counted.freePage (h : Counted d s) : Counted d (s.freePage pa) := by
  have hf : Counted d (s.trackFree pa 1) := h.trackFree
  exact hf.congr (Phys.freePage_allocTable s pa) (by simp only [Phys.freePage])

theorem Counted.freePagesFrom (h : Counted d s) (i : Nat) : Counted d (s.freePagesFrom pa i k) := by
  induction k generalizing s i with
  | zero => exact h
  | succ k ih => exact ih h.trackFree.freePage (i + 1)

theorem Counted.freeEach (h : Counted d s) (i : Nat) : Counted d (s.freeEach pa i k) := by
  induction k generalizing s i with
  | zero => exact h
  | succ k ih => exact ih h.freePage (i + 1)

/-- `free_page` does not find entries of several pages. -/
theorem freeEach_allocTable (hi : (s.allocTable i).npages ≠ 1) (j : Nat) :
    (s.freeEach pa j k).allocTable i = s.allocTable i := by
  induction k generalizing s j with
  | zero => rfl
  | succ k ih =>
      have hone : ∀ p, (s.freePage p).allocTable i = s.allocTable i := fun p => by
        rw [Phys.freePage_allocTable]
        rcases s.trackFree_cases p 1 with ⟨x, _, _, hx, he⟩ | ⟨_, he⟩
        · rw [he]
          exact Function.update_of_ne (fun hix => hi (by rw [hix]; exact hx)) _ _
        · rw [he]
      rw [Phys.freeEach, ih (by rwa [hone]), hone]

theorem freeEach_one (hpa : pa < 2 ^ 64) : s.freeEach pa 0 1 = s.freePage pa := by
  rw [Phys.freeEach, Phys.freeEach, Nat.zero_mul, Nat.add_zero, Nat.mod_eq_of_lt hpa]

/-- `free_page` leaves an entry in use unless `track_free` finds it. -/
theorem freePage_used (hi : (s.allocTable i).used) : ((s.freePage pa).allocTable i).used ↔
    s.findTrack (fun e => e.used && e.pa == pa && e.npages == 1) ≠ some i := by
  rw [Phys.freePage_allocTable]
  unfold Phys.trackFree
  split
  · rename_i h
    rw [h]
    exact iff_of_true hi (Option.some_ne_none i).symm
  · rename_i j h
    rw [h, ne_eq, Option.some.injEq]
    by_cases hij : j = i
    · subst hij
      simp only [Function.update_self, not_true_eq_false, iff_false, Bool.not_eq_true]
    · simp only [Function.update_of_ne (Ne.symm hij), hi, hij, not_false_eq_true]

/-- The entry of a round is still in use after its pages are freed, unless `track_free` has found it. -/
theorem freeEach_used (h : Counted d s) (hi : Tracked s pid i) :
    ((s.freeEach (s.allocTable i).pa 0 (s.allocTable i).npages).allocTable i).used ↔ ¬Phys.SelfFreed pid s i := by
  have hu : (s.allocTable i).used := by
    simp only [Tracked, Bool.and_eq_true] at hi
    exact hi.1
  by_cases hn : (s.allocTable i).npages = 1
  · rw [hn, freeEach_one (h.pa i), freePage_used hu, Phys.SelfFreed, and_iff_right hi]
  · rw [freeEach_allocTable hn]
    refine iff_of_true hu fun hs => hn ?_
    have := Phys.findTrack_some hs.2
    simp only [Bool.and_eq_true, beq_iff_eq] at this
    exact this.2

/-! ## The sweep -/

theorem freeTracked_untracked (h : ¬Tracked s pid i) : s.freeTracked pid i = s := by
  simp only [Tracked] at h
  simp only [Phys.freeTracked, h, Bool.false_eq_true, ↓reduceIte]

theorem rounds_untracked {r : List (Fin maxTrackedAllocs)} (h : ∀ i ∈ r, ¬Tracked s pid i) :
    r.foldl (Phys.freeTracked pid) s = s := by
  induction r with
  | nil => rfl
  | cons i r ih =>
      rw [List.foldl_cons, freeTracked_untracked (h i (List.mem_cons_self ..))]
      exact ih fun j hj => h j (List.mem_cons_of_mem _ hj)

/-- One round. -/
theorem Counted.freeTracked (h : Counted d s) :
    (¬Phys.SelfFreed pid s i → Counted d (s.freeTracked pid i)) ∧
      (Phys.SelfFreed pid s i → Counted (d + 1) (s.freeTracked pid i)) := by
  by_cases hi : Tracked s pid i
  · obtain ⟨s₁, hs₁⟩ : ∃ s₁, s₁ = s.freeEach (s.allocTable i).pa 0 (s.allocTable i).npages := ⟨_, rfl⟩
    have h1 : Counted d s₁ := hs₁ ▸ h.freeEach 0
    have hused := freeEach_used h hi
    rw [← hs₁] at hused
    have hround : s.freeTracked pid i = { s₁ with
        allocTable := Function.update s₁.allocTable i {}
        allocTableCount := dec64 s₁.allocTableCount } := by
      simp only [Tracked] at hi
      simp only [Phys.freeTracked, hi, ↓reduceIte, hs₁]
    have ht : (s.freeTracked pid i).allocTable = Function.update s₁.allocTable i {} := by rw [hround]
    have hc : (s.freeTracked pid i).allocTableCount = dec64 s₁.allocTableCount := by rw [hround]
    have hpa := pa_update h1.pa (by decide : ({} : AllocTrack).pa < 2 ^ 64) ht
    have hle := s₁.card_usedEntries
    have hmax : maxTrackedAllocs = 8192 := rfl
    have hoff := h1.off
    refine ⟨fun hq => ?_, fun hq => ?_⟩
    · have hcard := card_usedEntries_erase (hused.mpr hq) rfl ht
      refine ⟨?_, ?_, hpa⟩ <;> rw [hc] <;> unfold dec64 <;> omega
    · have hsame := usedEntries_same (fun hu => hused.mp hu hq) rfl ht
      refine ⟨?_, ?_, hpa⟩ <;> rw [hc] <;> unfold dec64
      · omega
      · rw [hsame]
        omega
  · rw [freeTracked_untracked hi]
    exact ⟨fun _ => h, fun hq => absurd hq.1 hi⟩

/-- Some rounds: the counter is off by the number of those that find their own entry. -/
theorem Counted.rounds (pid : Nat) (h : Counted d s) (r : List (Fin maxTrackedAllocs)) :
    ∃ d', d ≤ d' ∧ d' ≤ d + r.length ∧ Counted d' (r.foldl (Phys.freeTracked pid) s) ∧
      (d' = d ↔ ∀ l i l', r = l ++ i :: l' → ¬Phys.SelfFreed pid (l.foldl (Phys.freeTracked pid) s) i) := by
  induction r generalizing s d with
  | nil => exact ⟨d, Nat.le_refl _, Nat.le_refl _, h, iff_of_true rfl fun l i l' hr => by simp at hr⟩
  | cons j r ih =>
      have hsplit : (∀ l i l', j :: r = l ++ i :: l' → ¬Phys.SelfFreed pid (l.foldl (Phys.freeTracked pid) s) i) ↔
          ¬Phys.SelfFreed pid s j ∧ ∀ l i l', r = l ++ i :: l' →
            ¬Phys.SelfFreed pid (l.foldl (Phys.freeTracked pid) (s.freeTracked pid j)) i := by
        constructor
        · exact fun hq => ⟨hq [] j r rfl, fun l i l' hr => hq (j :: l) i l' (by rw [hr]; rfl)⟩
        · rintro ⟨h0, hq⟩ l i l' hr
          cases l with
          | nil =>
              obtain ⟨rfl, -⟩ := List.cons.inj hr
              exact h0
          | cons x l =>
              obtain ⟨rfl, hr'⟩ := List.cons.inj hr
              exact hq l i l' hr'
      rw [List.foldl_cons, List.length_cons, hsplit]
      by_cases hj : Phys.SelfFreed pid s j
      · obtain ⟨d', h1, h2, hd', -⟩ := ih (h.freeTracked.2 hj)
        exact ⟨d', by omega, by omega, hd', iff_of_false (by omega) fun hq => hq.1 hj⟩
      · obtain ⟨d', h1, h2, hd', hiff⟩ := ih (h.freeTracked.1 hj)
        exact ⟨d', h1, by omega, hd', hiff.trans (and_iff_right hj).symm⟩

theorem Counted.step (h : Counted 0 s) (hs : TrackerStep s c s') :
    (s'.CountExact ↔ s.Quiet c) ∧ (s'.CountExact → Counted 0 s') := by
  have hexact : ∀ {s'}, Counted 0 s' → (s'.CountExact ↔ True) ∧ (s'.CountExact → Counted 0 s') := fun hc =>
    ⟨iff_of_true ((hc.exact_iff (Nat.zero_le _)).mpr rfl) trivial, fun _ => hc⟩
  cases hs with
  | trackAlloc hpa => exact hexact (h.trackAlloc hpa)
  | freePage => exact hexact h.freePage
  | freePagesRange => exact hexact (h.freePagesFrom 0)
  | @freeAllTrackedForPid pid =>
      obtain ⟨d', -, h2, hd', hiff⟩ := h.rounds pid (List.finRange maxTrackedAllocs)
      rw [List.length_finRange, Nat.zero_add] at h2
      have hex : (s.freeAllTrackedForPid pid).CountExact ↔ d' = 0 := hd'.exact_iff h2
      exact ⟨hex.trans hiff, fun hx => hex.mp hx ▸ hd'⟩

theorem counted_boot (L : Layout) (m : ByteMem.Mem) : Counted 0 (Phys.boot L m) where
  lt := by
    show 0 < 2 ^ 64
    decide
  off := by
    have hset : (Phys.boot L m).usedEntries = ∅ := by
      ext i
      rw [mem_usedEntries]
      exact iff_of_false Bool.false_ne_true (Finset.notMem_empty i)
    rw [hset]
    rfl
  pa := fun _ => by
    show 0 < 2 ^ 64
    decide

/-- In the runs from boot the counter is exact in every state reached exactly when no sweep frees an entry that it
counts itself. -/
theorem countRun_iff {L : Layout} :
    (Phys.boot L m).CountExact ∧ ∀ l s,
      Run (fun s c s' => TrackerStep s c s' ∧ s'.CountExact) (Phys.boot L m) l s ↔
        Run (fun s c s' => TrackerStep s c s' ∧ s.Quiet c) (Phys.boot L m) l s :=
  ⟨((counted_boot L m).exact_iff (Nat.zero_le _)).mpr rfl, fun _ _ =>
    Run.and_iff (I := Counted 0) (fun _ _ _ h hs => h.step hs) (counted_boot L m)⟩

/-- A sweep that meets the only entry of the table, of one page. -/
theorem not_quiet_of_only (hi : Tracked s pid i) (hn : (s.allocTable i).npages = 1)
    (h : ∀ j, (s.allocTable j).used → j = i) : ¬s.Quiet (.freeAllTrackedForPid pid) := by
  intro hq
  obtain ⟨l, l', hl⟩ := List.append_of_mem (List.mem_finRange i)
  refine hq l i l' hl ?_
  have hnd := List.nodup_finRange maxTrackedAllocs
  rw [hl] at hnd
  rw [rounds_untracked fun j hj ht => ?_]
  · refine ⟨hi, ?_⟩
    cases hf : s.findTrack fun e => e.used && e.pa == (s.allocTable i).pa && e.npages == 1 with
    | none =>
        simp only [Tracked, Bool.and_eq_true] at hi
        exact absurd (by simp [hi.1, hn]) (Phys.findTrack_none hf i)
    | some j =>
        have hj := Phys.findTrack_some hf
        simp only [Bool.and_eq_true] at hj
        rw [h j hj.1.1]
  · simp only [Tracked, Bool.and_eq_true] at ht
    exact (List.nodup_append.mp hnd).2.2 j hj i (List.mem_cons_self ..) (h j ht.1)

/-- One page for the pid 3 and the sweep over it: the counter is not the number of entries any more. -/
theorem countRun_sweep : ¬∀ l s, Run TrackerStep (Phys.boot .kernelMap fun _ => 0) l s → s.CountExact := by
  intro hall
  have hpa : 0x804cb000 < 2 ^ 64 := by decide
  obtain ⟨s, hs⟩ : ∃ s, s = (Phys.boot .kernelMap fun _ => 0).trackAlloc 0x804cb000 1 3 := ⟨_, rfl⟩
  have hstep : TrackerStep (Phys.boot .kernelMap fun _ => 0) (.trackAlloc 0x804cb000 1 3) s := hs ▸ .trackAlloc hpa
  have h1 : Counted 0 s := hs ▸ (counted_boot .kernelMap fun _ => 0).trackAlloc hpa
  have hunused : ∀ i, ¬((Phys.boot .kernelMap fun _ => 0).allocTable i).used := fun _ => Bool.false_ne_true
  rcases (Phys.boot .kernelMap fun _ => 0).trackAlloc_cases 0x804cb000 1 3 with ⟨i, -, he⟩ | ⟨hused, -⟩
  · have ht : s.allocTable = Function.update (Phys.boot .kernelMap fun _ => 0).allocTable i
        { used := true, pa := 0x804cb000, npages := 1, owner := 3 } := by rw [hs, he]
    have hentry : s.allocTable i = { used := true, pa := 0x804cb000, npages := 1, owner := 3 } := by
      rw [ht, Function.update_self]
    have honly : ∀ j, (s.allocTable j).used → j = i := fun j hj => by
      by_contra hne
      rw [ht, Function.update_of_ne hne] at hj
      exact hunused j hj
    have htracked : Tracked s 3 i := by rw [Tracked, hentry]; rfl
    have hsweep : TrackerStep s (.freeAllTrackedForPid 3) (s.freeAllTrackedForPid 3) := .freeAllTrackedForPid
    exact not_quiet_of_only htracked (by rw [hentry]) honly
      ((h1.step hsweep).1.mp (hall _ _ (.cons hstep (.single hsweep))))
  · exact hunused _ (hused ⟨0, by decide⟩)

end RiscvOs
