import RiscvOs.Lemmas.Fork

/-!
# `free_proc` and `sys_wait`

A process that is reaped gives back its flat image, the pages of its address space and every page that is
tracked under its pid. The page of its trap frame is not among them unless it is tracked under that pid.
-/

namespace RiscvOs

open ByteMem Outcome Kernel

variable {L : Layout} {k k' : Kernel} {F F' : List Nat} {i z : Fin procsMax} {m : Mem} {s s' : Phys}
  {pg status : Nat} {p : Proc} {ret : SysRet}

namespace Kernel

/-- The pages that `free_proc` of `z` gives back. -/
def Released (L : Layout) (k : Kernel) (z : Fin procsMax) (pg : Nat) : Prop :=
  (∃ r, r ≠ .tf ∧ k.Holds L z r pg) ∨
    ∃ e, Tracked k.phys (k.procs z).pid e ∧ (k.phys.allocTable e).pa = pg

/-- The record that `free_proc` leaves. -/
def reaped (p : Proc) : Proc :=
  { p with
    tf := 0, imagePa := 0, imageNpages := if p.imagePa ≠ 0 then 0 else p.imageNpages, pageTable := 0
    state := .unused, pid := 0, parent := none, name := [], heapEnd := 0, userStackTop := 0
    argc := 0, argvPtr := 0 }

/-- What `free_proc` does. -/
structure Reaped (L : Layout) (k : Kernel) (F : List Nat) (z : Fin procsMax) (k' : Kernel) (F' : List Nat) :
    Prop where
  frees : Frees L k.phys F k'.phys F' (k.Released L z) fun _ => False
  state : k' = { k with phys := k'.phys, processCount := k.processCount - 1 }.setProc z
    (reaped (k.procs z))

/-- The rounds of the loop of `process_free_userspace`, unless it does not end. -/
def freeRounds (k : Kernel) (z : Fin procsMax) : Except Halt Nat :=
  let endVa := pgRoundUp (max (k.procs z).heapEnd k.gUserStackTop)
  if endVa ≥ 2 ^ 64 - 4096 then .error .spin
  else .ok (if userBase ≤ endVa then (endVa - userBase) / 4096 + 1 else 0)

end Kernel

theorem holds_image_iff (h : p.imagePa ≠ 0) :
    InBlock p.imagePa p.imageNpages pg ↔ ∃ n, p.holds L m i (.image n) = some pg := by
  constructor
  · rintro ⟨n, hn, rfl⟩
    exact ⟨n, if_pos ⟨h, hn⟩⟩
  · rintro ⟨n, hn⟩
    exact ⟨n, (Proc.holds_image_some hn).2⟩

/-- The pages of the flat image of process `z`. -/
def ImagePage (L : Layout) (k : Kernel) (z : Fin procsMax) (pg : Nat) : Prop :=
  ∃ n, (k.procs z).holds L k.phys.mem z (.image n) = some pg

/-- The first part of `free_proc`. -/
theorem freeImage_spec (hk : k.Inv L F) (hl : k.Live z) :
    ∃ F', Frees L k.phys F
      (if (k.procs z).imagePa ≠ 0 then
        k.phys.freePagesRange (k.procs z).imagePa (k.procs z).imageNpages else k.phys) F'
      (ImagePage L k z) fun _ => False := by
  split
  · rename_i h
    obtain ⟨F', hf⟩ := Frees.freePagesRange (n := (k.procs z).imageNpages) hk.ok hk.track fun pg hpg => by
      obtain ⟨n, hn⟩ := (holds_image_iff (L := L) (m := k.phys.mem) (i := z) h).mp hpg
      exact (hk.proc z hl).page _ pg hn
    exact ⟨F', hf.congr _ _ (fun pg => holds_image_iff h) fun _ => False.elim⟩
  · rename_i h
    refine ⟨F, (Frees.refl hk.ok hk.track).congr _ _ (fun pg => ⟨False.elim, fun ⟨n, hn⟩ => ?_⟩)
      fun _ => False.elim⟩
    rw [not_not] at h
    simp [Proc.holds, h] at hn

/-- The space of `z` after the first part. -/
theorem freeImage_space (hk : k.Inv L F) (hl : k.Live z) (hpt : (k.procs z).pageTable ≠ 0)
    (hf : Frees L k.phys F s F' (ImagePage L k z) fun _ => False) :
    SpaceOk L s F' (k.procs z).pageTable ∧
      leafAt s.mem (k.procs z).pageTable = leafAt k.phys.mem (k.procs z).pageTable ∧
      spaceAt s.mem (k.procs z).pageTable = spaceAt k.phys.mem (k.procs z).pageTable := by
  have hp := hk.proc z hl
  have hs := hp.spaceOk hpt
  have hne : ∀ pg, InSpace k.phys.mem (k.procs z).pageTable pg → ¬ImagePage L k z pg := by
    rintro pg ⟨q, hq⟩ ⟨n, hn⟩
    cases hp.inj _ _ pg ((Proc.holds_space hpt q).trans hq) hn
  have hm : ∀ a, IsTable k.phys.mem (k.procs z).pageTable (pageOf a) → s.mem a = k.phys.mem a :=
    fun a ha => hf.mem a (hne _ ha.inSpace) id
  refine ⟨hs.congr hm fun pg hpg hav => ?_, leafAt_congr hm fun pg => hs.tables.aligned,
    spaceAt_congr hm fun pg => hs.tables.aligned⟩
  rcases (hf.avail pg).mp hav with h | h
  · exact (hs.page pg hpg).2 h
  · exact hne pg hpg h

/-- The page tracked by an entry is given back by the sweep, if not before. -/
theorem Frees.tracked {D : Nat → Prop} {pid : Nat} (hf : Frees L s F s' F' D fun _ => False) :
    (D pg ∨ ∃ e, Tracked s' pid e ∧ (s'.allocTable e).pa = pg) ↔
      D pg ∨ ∃ e, Tracked s pid e ∧ (s.allocTable e).pa = pg := by
  constructor
  · rintro (h | ⟨e, he, hp⟩)
    · exact .inl h
    · have hu : (s'.allocTable e).used := by
        simp only [Tracked, Bool.and_eq_true] at he
        exact he.1
      have ht := hf.table e hu
      refine .inr ⟨e, ?_, ht ▸ hp⟩
      unfold Tracked at he ⊢
      rwa [ht] at he
  · rintro (h | ⟨e, he, hp⟩)
    · exact .inl h
    · by_cases hd : D pg
      · exact .inl hd
      · have hu : (s.allocTable e).used := by
          simp only [Tracked, Bool.and_eq_true] at he
          exact he.1
        have ht := hf.kept e hu (hp ▸ hd)
        refine .inr ⟨e, ?_, by rw [ht, hp]⟩
        unfold Tracked at he ⊢
        rwa [ht]

theorem processFreeUserspace_eq (hpt : (k.procs z).pageTable ≠ 0) :
    k.processFreeUserspace z = (do
      let n ← k.freeRounds z
      let s ← k.phys.freeLeaves (k.procs z).pageTable userBase n
      let s ← Phys.freePagetable 2 s (k.procs z).pageTable
      .ok ({ k with phys := s.freePage (k.procs z).pageTable }.setProc z
        { k.procs z with pageTable := 0 })) := by
  unfold processFreeUserspace freeRounds
  simp only [hpt, if_false]
  split <;> rfl

/-- The rest of `free_proc` after the image. -/
theorem freeProc_rest {k₁ : Kernel} (hpt : (k₁.procs z).pageTable ≠ 0) :
    (do
      let k ← k₁.processFreeUserspace z
      let k := { k with phys := k.phys.freeAllTrackedForPid (k.procs z).pid }
      let p := k.procs z
      .ok ({ k with processCount := k.processCount - 1 }.setProc z
        { p with
          state := .unused, pid := 0, parent := none, name := [], heapEnd := 0, userStackTop := 0
          argc := 0, argvPtr := 0 })) =
    (do
      let n ← k₁.freeRounds z
      let s ← k₁.phys.freeLeaves (k₁.procs z).pageTable userBase n
      let s ← Phys.freePagetable 2 s (k₁.procs z).pageTable
      .ok ({ k₁ with
        phys := (s.freePage (k₁.procs z).pageTable).freeAllTrackedForPid (k₁.procs z).pid
        processCount := k₁.processCount - 1 }.setProc z
        { k₁.procs z with
          pageTable := 0, state := .unused, pid := 0, parent := none, name := [], heapEnd := 0
          userStackTop := 0, argc := 0, argvPtr := 0 }) : Except Halt Kernel) := by
  rw [processFreeUserspace_eq hpt]
  cases k₁.freeRounds z with
  | error e => rfl
  | ok n =>
      simp only [ok_bind]
      cases k₁.phys.freeLeaves (k₁.procs z).pageTable userBase n with
      | error e => rfl
      | ok s =>
          simp only [ok_bind]
          cases Phys.freePagetable 2 s (k₁.procs z).pageTable with
          | error e => rfl
          | ok s =>
              simp only [ok_bind, setProc, Function.update_self, Function.update_idem]

/-- `free_proc` is the release of the space, after that of the image and before that of what is tracked. -/
theorem freeProc_eq (hpt : (k.procs z).pageTable ≠ 0) :
    k.freeProc z = (do
      let n ← k.freeRounds z
      let s := if (k.procs z).imagePa ≠ 0 then
        k.phys.freePagesRange (k.procs z).imagePa (k.procs z).imageNpages else k.phys
      let s ← s.freeLeaves (k.procs z).pageTable userBase n
      let s ← Phys.freePagetable 2 s (k.procs z).pageTable
      .ok ({ k with
        phys := (s.freePage (k.procs z).pageTable).freeAllTrackedForPid (k.procs z).pid
        processCount := k.processCount - 1 }.setProc z (reaped (k.procs z)))) := by
  unfold freeProc
  by_cases hi : (k.procs z).imagePa ≠ 0
  · simp only [if_pos hi]
    rw [freeProc_rest (by simpa using hpt)]
    simp only [setProc, Function.update_self, Function.update_idem, reaped, if_pos hi, freeRounds]
  · simp only [if_neg hi]
    rw [freeProc_rest (by simpa using hpt)]
    simp only [setProc, Function.update_self, Function.update_idem, reaped, if_neg hi, freeRounds]
    rw [not_not] at hi
    rw [hi]

/-- `free_proc` of a live process with an address space. -/
theorem freeProc_spec (hk : k.Inv L F) (hl : k.Live z) (hpt : (k.procs z).pageTable ≠ 0)
    (h : k.freeProc z = .ok k') : ∃ F', Reaped L k F z k' F' := by
  have hp := hk.proc z hl
  obtain ⟨F₁, hf1⟩ := freeImage_spec hk hl
  rw [freeProc_eq hpt] at h
  simp only [bind_eq_ok, Except.ok.injEq] at h
  obtain ⟨n, _, s₂, h2, s₃, h3, hk'⟩ := h
  generalize hs1 : (if (k.procs z).imagePa ≠ 0 then
    k.phys.freePagesRange (k.procs z).imagePa (k.procs z).imageNpages else k.phys) = s₁ at hf1 h2
  obtain ⟨hspace, hleaf, hsp⟩ := freeImage_space hk hl hpt hf1
  obtain ⟨t₂, t₃, F₂, ht2, ht3, hf2⟩ := freeSpace_spec hf1.ok hf1.track hspace (fun v hv => by
    rw [hleaf] at hv ⊢
    exact (hp.map hpt).rwx hv) n
  obtain rfl : s₂ = t₂ := Except.ok.inj (h2.symm.trans ht2)
  obtain rfl : s₃ = t₃ := Except.ok.inj (h3.symm.trans ht3)
  have hf12 : Frees L k.phys F (s₃.freePage (k.procs z).pageTable) F₂
      (fun pg => ImagePage L k z pg ∨ InSpace s₁.mem (k.procs z).pageTable pg) fun _ => False :=
    (hf1.trans hf2).congr _ _ (fun _ => Iff.rfl) fun _ hw => (hw.elim id id).elim
  have hf3 := sweep_spec hf2.ok hf2.track (k.procs z).pid
  generalize ((List.filter (Tracked _ (k.procs z).pid) _).map _).reverse ++ F₂ = F₃ at hf3
  generalize (s₃.freePage (k.procs z).pageTable).freeAllTrackedForPid (k.procs z).pid = s₄ at hf3 hk'
  subst hk'
  refine ⟨F₃, (hf12.trans hf3).congr _ _ (fun pg => ?_) fun _ hw => (hw.elim id id).elim, rfl⟩
  rw [hf12.tracked]
  unfold Released
  refine or_congr_left ⟨?_, ?_⟩
  · rintro (⟨n, hn⟩ | ⟨q, hq⟩)
    · exact ⟨.image n, by simp, hl, hn⟩
    · rw [hsp] at hq
      exact ⟨.space q, by simp, hl, (Proc.holds_space hpt q).trans hq⟩
  · rintro ⟨r, hr, _, hh⟩
    cases r with
    | space q =>
        refine .inr ⟨q, ?_⟩
        rw [hsp]
        exact (Proc.holds_space hpt q).symm.trans hh
    | tf => exact absurd rfl hr
    | image n => exact .inl ⟨n, hh⟩

/-- `free_proc` gives everything back if the loop of `process_free_userspace` ends. -/
theorem freeProc_total (hk : k.Inv L F) (hl : k.Live z) (hpt : (k.procs z).pageTable ≠ 0) {n : Nat}
    (hn : k.freeRounds z = .ok n) : ∃ k', k.freeProc z = .ok k' := by
  have hp := hk.proc z hl
  obtain ⟨F₁, hf1⟩ := freeImage_spec hk hl
  obtain ⟨hspace, hleaf, _⟩ := freeImage_space hk hl hpt hf1
  obtain ⟨t₂, t₃, F₂, ht2, ht3, _⟩ := freeSpace_spec hf1.ok hf1.track hspace (fun v hv => by
    rw [hleaf] at hv ⊢
    exact (hp.map hpt).rwx hv) n
  rw [freeProc_eq hpt, hn]
  simp only [ok_bind, ht2, ht3]
  exact ⟨_, rfl⟩

/-! ## `sys_wait` -/

theorem findZombie_some (h : k.findZombie = some z) :
    (k.procs z).state = .zombie ∧ (k.procs z).parent = some k.cur := by
  have := @List.find?_some _
    (fun i => (k.procs i).state == .zombie && (k.procs i).parent == some k.cur) _ _ h
  simpa using this

/-- The `int` at `status` lies below the kernel. -/
def StatusOk (status : Nat) : Prop := status = 0 ∨ status + 4 ≤ kernelBase

/-- Every child that the process forked and that is still in use has called `sys_exec` since. -/
def ChildrenExeced (L : Layout) (k : Kernel) (z : Fin procsMax) : Prop :=
  ∀ q, q ≠ z → k.Live q → (k.procs q).parentPid = (k.procs z).pid → (k.procs q).tf = L.tfStackFrame q

/-- A reaped process that leaves no such child gives back no page of another process. -/
theorem Kernel.Inv.not_released {q : Fin procsMax} {r : Role} (hk : k.Inv L F) (hl : k.Live z) (hz : z ≠ 0)
    (hc : ChildrenExeced L k z) (hq : q ≠ z) (hr : k.Holds L q r pg) : ¬k.Released L z pg := by
  rintro (⟨r', _, hr'⟩ | ⟨e, he, rfl⟩)
  · exact hq (hk.apart _ _ _ _ pg hr hr')
  · -- the entry is under the pid of `z`, which is no pid of the pages of `q`
    simp only [Tracked, Bool.and_eq_true, beq_iff_eq] at he
    have hzp := (hk.proc z hl).pid
    rw [if_neg hz] at hzp
    rcases (hk.proc q hr.1).owner r _ e hr.2 he.1 rfl with ho | ho | ⟨htf, ho⟩
    · rw [he.2, hzp, (hk.proc q hr.1).pid] at ho
      split at ho
      · omega
      · exact hq (Fin.ext (by omega))
    · omega
    · exact htf (hc q hq hr.1 (ho.symm.trans he.2))

theorem Kernel.Reaped.inv (h : Reaped L k F z k' F') (hk : k.Inv L F) (hl : k.Live z) (hz : z ≠ 0)
    (hc : ChildrenExeced L k z) : k'.Inv L F' := by
  have hprocs : k'.procs = Function.update k.procs z (reaped (k.procs z)) := by
    rw [h.state]
    rfl
  exact hk.release h.frees rfl hprocs (fun pg hpg q hq r hr => hk.not_released hl hz hc hq hr hpg)
    (fun hp => absurd rfl hp) fun hp => absurd rfl hp

/-- What `sys_wait` does: it leaves the kernel, or it reaps a zombie after it has stored the exit code. -/
theorem sysWait_spec (hk : k.Inv L F) (hl : k.Live k.cur) (hpt : (k.procs k.cur).pageTable ≠ 0)
    (hs : k.satp = (k.procs k.cur).pageTable) (hst : StatusOk status)
    (h : k.sysWait L status = .ok (ret, k')) :
    (k.findZombie = none ∧ ret = .switched ∧ k.yield L = (k', true)) ∨
      ∃ z k₁, k.findZombie = some z ∧ ret = .value (k.procs z).pid ∧ UserWrites k k.cur k₁ ∧
        k.storeStatus L status (k.procs z).exitCode = .ok k₁ ∧ k₁.freeProc z = .ok k' := by
  unfold sysWait at h
  cases hz : k.findZombie with
  | none =>
      rw [hz] at h
      left
      simp only at h
      split at h
      · rename_i k₁ hy
        simp only [Except.ok.injEq, Prod.mk.injEq] at h
        exact ⟨rfl, h.1.symm, by rw [hy, h.2]⟩
      · cases h
  | some z =>
      rw [hz] at h
      right
      simp only [bind_eq_ok, Except.ok.injEq, Prod.mk.injEq] at h
      obtain ⟨k₁, h1, k₂, h2, rfl, rfl⟩ := h
      have hw : UserWrites k k.cur k₁ := by
        unfold storeStatus at h1
        split at h1
        · simp only [Except.ok.injEq] at h1
          subst h1
          exact .refl _ _
        · rename_i hne
          have hst' := hst.resolve_left hne
          exact storeBytes_spec hk hl hpt hs (by simpa using hst') h1
      refine ⟨z, k₁, rfl, ?_, hw, h1, h2⟩
      rw [hw.procs]

theorem Kernel.Valid.sysWait (hk : k.Valid L F) (hl : k.Live k.cur) (hs : k.satp = (k.procs k.cur).pageTable)
    (hst : StatusOk status) (hc : ∀ z, k.findZombie = some z → ChildrenExeced L k z)
    (h : k.sysWait L status = .ok (ret, k')) : ∃ F', k'.Valid L F' := by
  rcases sysWait_spec hk.toInv hl (hk.full _ hl) hs hst h with ⟨_, _, hy⟩ | ⟨z, k₁, hz, _, hw, _, hf⟩
  · have hv := hk.yield (L := L)
    rw [hy] at hv
    exact ⟨F, hv⟩
  · obtain ⟨hzs, hzp⟩ := findZombie_some hz
    have hk₁ := hw.valid hk hl
    have hzl : k₁.Live z := by
      rw [hw.live, Live, hzs]
      simp
    have hz0 : z ≠ 0 := by
      rintro rfl
      rw [hk.idle.2] at hzp
      cases hzp
    obtain ⟨F', hr⟩ := freeProc_spec hk₁.toInv hzl (hk₁.full z hzl) hf
    have hc₁ : ChildrenExeced L k₁ z := by
      unfold ChildrenExeced Live
      rw [hw.procs]
      exact hc z hz
    have hprocs : k'.procs = Function.update k₁.procs z (reaped (k₁.procs z)) := by
      rw [hr.state]
      rfl
    refine ⟨F', hk₁.update (hr.inv hk₁.toInv hzl hz0 hc₁) hprocs (fun hp => absurd rfl hp)
      (fun hp => absurd rfl hp) (fun he => absurd he hz0) ?_⟩
    have hg := hk₁.globals
    rw [hr.state]
    exact ⟨hg.stackTop, hg.stackBottom, hg.heapStart, hg.heapEnd⟩

end RiscvOs
