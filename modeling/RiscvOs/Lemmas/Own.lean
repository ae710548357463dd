import RiscvOs.Lemmas.Room

/-!
# Which process holds which page

A live process holds the pages of its address space, the page of its trap frame if it does not lie on its
kernel stack, and the pages of its flat image. The invariant says that every page held is allocated, and
held by one process in one role. It is kept by a step of one process that takes new pages only from the
allocator, and by one that gives back only pages that no other process holds.
-/

namespace RiscvOs

open ByteMem Outcome

/-- The roles in which a process holds pages. -/
inductive Role
  | space (q : List (Fin 512))
  | tf
  | image (n : Nat)
  deriving DecidableEq

def Proc.holds (L : Layout) (m : Mem) (i : Fin procsMax) (p : Proc) : Role → Option Nat
  | .space q => if p.pageTable = 0 then none else spaceAt m p.pageTable q
  | .tf => if p.tf = L.tfStackFrame i then none else some p.tf
  | .image n => if p.imagePa ≠ 0 ∧ n < p.imageNpages then some (p.imagePa + n * 4096) else none

/-- A page of the process may be tracked under the pid `o`. A process that was forked and has made no
`sys_exec` since has a trap frame outside its kernel stack. -/
def Proc.Owns (L : Layout) (i : Fin procsMax) (p : Proc) (o : Nat) : Prop :=
  o = p.pid ∨ o = 0 ∨ p.tf ≠ L.tfStackFrame i ∧ o = p.parentPid

/-- What holds of a live process in slot `i`. -/
structure ProcOk (L : Layout) (s : Phys) (F : List Nat) (i : Fin procsMax) (p : Proc) : Prop where
  page : ∀ r pg, p.holds L s.mem i r = some pg → IsPage L pg ∧ ¬Avail L s F pg
  inj : ∀ r r' pg, p.holds L s.mem i r = some pg → p.holds L s.mem i r' = some pg → r = r'
  /-- what a process holds is tracked under its pid, under 0 since boot, or under the pid of its parent
  since `sys_fork` -/
  owner : ∀ r pg e, p.holds L s.mem i r = some pg → (s.allocTable e).used →
    (s.allocTable e).pa = pg → Proc.Owns L i p (s.allocTable e).owner
  map : p.pageTable ≠ 0 → SpaceMap L s.mem p.pageTable
  pid : p.pid = if i = 0 then 0 else (i : Nat) + 1
  parent : p.parent ≠ some i

namespace Kernel

/-- The slot is in use. -/
def Live (k : Kernel) (i : Fin procsMax) : Prop := (k.procs i).state ≠ .unused

instance (k : Kernel) (i : Fin procsMax) : Decidable (k.Live i) := inferInstanceAs (Decidable (_ ≠ _))

def Holds (L : Layout) (k : Kernel) (i : Fin procsMax) (r : Role) (pg : Nat) : Prop :=
  k.Live i ∧ (k.procs i).holds L k.phys.mem i r = some pg

structure Inv (L : Layout) (k : Kernel) (F : List Nat) : Prop where
  ok : AllocOk L k.phys F
  track : TrackOk L k.phys F
  proc : ∀ i, k.Live i → ProcOk L k.phys F i (k.procs i)
  apart : ∀ i j r r' pg, k.Holds L i r pg → k.Holds L j r' pg → i = j

end Kernel

variable {L : Layout} {k k' : Kernel} {F F' : List Nat} {i j c : Fin procsMax} {r r' : Role}
  {pg root o : Nat} {p : Proc} {m : Mem} {s s' : Phys} {W D : Nat → Prop}

theorem Proc.holds_space (hpt : p.pageTable ≠ 0) (q : List (Fin 512)) :
    p.holds L m i (.space q) = spaceAt m p.pageTable q := if_neg hpt

theorem Proc.holds_space_some {q : List (Fin 512)} (h : p.holds L m i (.space q) = some pg) :
    p.pageTable ≠ 0 ∧ spaceAt m p.pageTable q = some pg := by
  simp only [Proc.holds] at h
  split at h
  · cases h
  · exact ⟨‹_›, h⟩

theorem Proc.holds_tf_some (h : p.holds L m i .tf = some pg) : p.tf ≠ L.tfStackFrame i ∧ pg = p.tf := by
  simp only [Proc.holds] at h
  split at h
  · cases h
  · exact ⟨‹_›, (Option.some.inj h).symm⟩

theorem Proc.holds_image_some {n : Nat} (h : p.holds L m i (.image n) = some pg) :
    p.imagePa ≠ 0 ∧ n < p.imageNpages ∧ pg = p.imagePa + n * 4096 := by
  simp only [Proc.holds] at h
  split at h
  · rename_i hc
    exact ⟨hc.1, hc.2, (Option.some.inj h).symm⟩
  · cases h

theorem ProcOk.spaceOk (h : ProcOk L s F i p) (hpt : p.pageTable ≠ 0) : SpaceOk L s F p.pageTable := by
  refine ⟨fun q q' x hq hq' => ?_, fun pg ⟨q, hq⟩ => h.page _ _ ((Proc.holds_space hpt q).trans hq)⟩
  exact Role.space.inj (h.inj _ _ x ((Proc.holds_space hpt q).trans hq) ((Proc.holds_space hpt q').trans hq'))

theorem ProcOk.aligned (h : ProcOk L s F i p) (hpt : p.pageTable ≠ 0)
    (ht : IsTable s.mem p.pageTable pg) : pg % 4096 = 0 := (h.spaceOk hpt).tables.aligned ht

/-- A process whose tables keep their contents holds what it held. -/
theorem ProcOk.holds_congr (h : ProcOk L s F i p)
    (hm : ∀ a, p.pageTable ≠ 0 → IsTable s.mem p.pageTable (pageOf a) → m a = s.mem a) :
    p.holds L m i = p.holds L s.mem i := by
  funext r
  cases r with
  | tf => rfl
  | image n => rfl
  | space q =>
      simp only [Proc.holds]
      split
      · rfl
      · rename_i hpt
        exact congrFun (spaceAt_congr (fun a ha => hm a hpt ha) fun pg => h.aligned hpt) q

/-- A process from its parts: an address space, a trap frame and a flat image. -/
theorem ProcOk.of_parts (hspace : p.pageTable ≠ 0 → SpaceOk L s F p.pageTable ∧ SpaceMap L s.mem p.pageTable)
    (htf : p.tf ≠ L.tfStackFrame i → IsPage L p.tf ∧ ¬Avail L s F p.tf ∧
      (p.pageTable ≠ 0 → ¬InSpace s.mem p.pageTable p.tf))
    (himg : p.imagePa ≠ 0 → ∀ pg, InBlock p.imagePa p.imageNpages pg → IsPage L pg ∧ ¬Avail L s F pg ∧
      (p.pageTable ≠ 0 → ¬InSpace s.mem p.pageTable pg) ∧ (p.tf ≠ L.tfStackFrame i → pg ≠ p.tf))
    (howner : ∀ r pg e, p.holds L s.mem i r = some pg → (s.allocTable e).used →
      (s.allocTable e).pa = pg → Proc.Owns L i p (s.allocTable e).owner)
    (hpid : p.pid = if i = 0 then 0 else (i : Nat) + 1) (hparent : p.parent ≠ some i) :
    ProcOk L s F i p := by
  have hst : ∀ q pg, p.holds L s.mem i (.space q) = some pg → p.holds L s.mem i .tf ≠ some pg := by
    intro q pg h h'
    obtain ⟨hpt, hq⟩ := Proc.holds_space_some h
    obtain ⟨hne, rfl⟩ := Proc.holds_tf_some h'
    exact (htf hne).2.2 hpt ⟨q, hq⟩
  have hsi : ∀ q n pg, p.holds L s.mem i (.space q) = some pg → p.holds L s.mem i (.image n) ≠ some pg := by
    intro q n pg h h'
    obtain ⟨hpt, hq⟩ := Proc.holds_space_some h
    obtain ⟨hne, hn, he⟩ := Proc.holds_image_some h'
    exact (himg hne pg ⟨n, hn, he⟩).2.2.1 hpt ⟨q, hq⟩
  have hti : ∀ n pg, p.holds L s.mem i .tf = some pg → p.holds L s.mem i (.image n) ≠ some pg := by
    intro n pg h h'
    obtain ⟨hne, rfl⟩ := Proc.holds_tf_some h
    obtain ⟨hne', hn, he⟩ := Proc.holds_image_some h'
    exact (himg hne' _ ⟨n, hn, he⟩).2.2.2 hne rfl
  refine ⟨fun r pg h => ?_, fun r r' pg h h' => ?_, howner, fun hpt => (hspace hpt).2, hpid, hparent⟩
  · cases r with
    | space q =>
        obtain ⟨hpt, hq⟩ := Proc.holds_space_some h
        exact (hspace hpt).1.page pg ⟨q, hq⟩
    | tf =>
        obtain ⟨hne, rfl⟩ := Proc.holds_tf_some h
        exact ⟨(htf hne).1, (htf hne).2.1⟩
    | image n =>
        obtain ⟨hne, hn, he⟩ := Proc.holds_image_some h
        exact ⟨(himg hne pg ⟨n, hn, he⟩).1, (himg hne pg ⟨n, hn, he⟩).2.1⟩
  · cases r with
    | space q =>
        cases r' with
        | space q' =>
            obtain ⟨hpt, hq⟩ := Proc.holds_space_some h
            rw [(hspace hpt).1.distinct q q' pg hq (Proc.holds_space_some h').2]
        | tf => exact absurd h' (hst q pg h)
        | image n => exact absurd h' (hsi q n pg h)
    | tf =>
        cases r' with
        | space q' => exact absurd h (hst q' pg h')
        | tf => rfl
        | image n => exact absurd h' (hti n pg h)
    | image n =>
        cases r' with
        | space q' => exact absurd h (hsi q' n pg h')
        | tf => exact absurd h (hti n pg h')
        | image n' =>
            have h1 := (Proc.holds_image_some h).2.2
            have h2 := (Proc.holds_image_some h').2.2
            rw [show n = n' by omega]

/-- A process that a step of another one leaves alone. -/
theorem ProcOk.congr (h : ProcOk L s F i p)
    (hm : ∀ a, p.pageTable ≠ 0 → IsTable s.mem p.pageTable (pageOf a) → s'.mem a = s.mem a)
    (hav : ∀ r pg, p.holds L s.mem i r = some pg → ¬Avail L s' F' pg)
    (ht : ∀ e, (s'.allocTable e).used →
      s'.allocTable e = s.allocTable e ∨ Avail L s F (s'.allocTable e).pa) : ProcOk L s' F' i p := by
  have hh := h.holds_congr hm
  refine ⟨fun r pg hr => ?_, ?_, fun r pg e hr hu he => ?_, fun hpt => ?_, h.pid, h.parent⟩
  · rw [hh] at hr
    exact ⟨(h.page r pg hr).1, hav r pg hr⟩
  · rw [hh]
    exact h.inj
  · rw [hh] at hr
    rcases ht e hu with heq | hnew
    · rw [heq] at hu he ⊢
      exact h.owner r pg e hr hu he
    · exact absurd (he ▸ hnew) (h.page _ pg hr).2
  · exact (h.map hpt).congr (leafAt_congr (fun a ha => hm a hpt ha) fun pg => h.aligned hpt)

namespace Kernel

@[simp] theorem setProc_procs_self : (k.setProc i p).procs i = p := Function.update_self _ _ _

theorem setProc_procs_of_ne (h : j ≠ i) : (k.setProc i p).procs j = k.procs j :=
  Function.update_of_ne h _ _

@[simp] theorem setProc_phys : (k.setProc i p).phys = k.phys := rfl

@[simp] theorem setProc_currentProc : (k.setProc i p).currentProc = k.currentProc := rfl

theorem holds_space (h : k.Live i) (hpt : (k.procs i).pageTable ≠ 0)
    (hs : InSpace k.phys.mem (k.procs i).pageTable pg) : ∃ q, k.Holds L i (.space q) pg := by
  obtain ⟨q, hq⟩ := hs
  exact ⟨q, h, (Proc.holds_space hpt q).trans hq⟩

/-- A step of the process in slot `c`: the other processes are left alone, and `c` gets a new record. -/
theorem Inv.step (hk : k.Inv L F) (hok : AllocOk L s' F') (ht : TrackOk L s' F')
    (hphys : k'.phys = s') (hprocs : k'.procs = Function.update k.procs c p)
    (hmem : ∀ i, i ≠ c → k.Live i → (k.procs i).pageTable ≠ 0 → ∀ a,
      IsTable k.phys.mem (k.procs i).pageTable (pageOf a) → s'.mem a = k.phys.mem a)
    (hav : ∀ i, i ≠ c → ∀ r pg, k.Holds L i r pg → ¬Avail L s' F' pg)
    (htab : ∀ e, (s'.allocTable e).used →
      s'.allocTable e = k.phys.allocTable e ∨ Avail L k.phys F (s'.allocTable e).pa)
    (hp : p.state ≠ .unused → ProcOk L s' F' c p)
    (hfrom : p.state ≠ .unused → ∀ r pg, p.holds L s'.mem c r = some pg →
      (∃ r', k.Holds L c r' pg) ∨ Avail L k.phys F pg) : k'.Inv L F' := by
  have hc : k'.procs c = p := by rw [hprocs, Function.update_self]
  have hne : ∀ i, i ≠ c → k'.procs i = k.procs i := fun i hi => by rw [hprocs, Function.update_of_ne hi]
  have hlive : ∀ i, i ≠ c → (k'.Live i ↔ k.Live i) := fun i hi => by rw [Live, Live, hne i hi]
  have hother : ∀ i, i ≠ c → ∀ r pg, k'.Holds L i r pg ↔ k.Holds L i r pg := by
    intro i hi r pg
    unfold Holds
    rw [hlive i hi, hne i hi, hphys]
    refine and_congr_right fun hl => ?_
    rw [(hk.proc i hl).holds_congr fun a hpt ha => hmem i hi hl hpt a ha]
  have hcfrom : ∀ r pg, k'.Holds L c r pg → ∀ i, i ≠ c → ∀ r', ¬k'.Holds L i r' pg := by
    rintro r pg ⟨hl, hr⟩ i hi r' hr'
    rw [Live, hc] at hl
    rw [hc, hphys] at hr
    rw [hother i hi] at hr'
    rcases hfrom hl r pg hr with ⟨r'', hr''⟩ | hx
    · exact hi (hk.apart i c _ _ pg hr' hr'')
    · exact ((hk.proc i hr'.1).page r' pg hr'.2).2 hx
  refine ⟨hphys ▸ hok, hphys ▸ ht, fun i hl => ?_, fun i j r r' pg hi hj => ?_⟩
  · by_cases hic : i = c
    · subst hic
      rw [Live, hc] at hl
      rw [hc, hphys]
      exact hp hl
    · rw [hlive i hic] at hl
      rw [hne i hic, hphys]
      exact (hk.proc i hl).congr (fun a hpt ha => hmem i hic hl hpt a ha)
        (fun r pg hr => hav i hic r pg ⟨hl, hr⟩) htab
  · by_cases hic : i = c
    · subst hic
      by_contra hij
      exact hcfrom r pg hi j (Ne.symm hij) r' hj
    · by_cases hjc : j = c
      · subst hjc
        exact absurd hi (hcfrom r' pg hj i hic r)
      · exact hk.apart i j r r' pg ((hother i hic r pg).mp hi) ((hother j hjc r' pg).mp hj)

/-- A step that takes pages from the allocator and writes to no table of another process. -/
theorem Inv.grow (hk : k.Inv L F) (hg : Grows L o k.phys F s' F' W) (hphys : k'.phys = s')
    (hprocs : k'.procs = Function.update k.procs c p)
    (hW : ∀ pg, W pg → ∀ i, i ≠ c → k.Live i → (k.procs i).pageTable ≠ 0 →
      ¬IsTable k.phys.mem (k.procs i).pageTable pg)
    (hp : p.state ≠ .unused → ProcOk L s' F' c p)
    (hfrom : p.state ≠ .unused → ∀ r pg, p.holds L s'.mem c r = some pg →
      (∃ r', k.Holds L c r' pg) ∨ Avail L k.phys F pg) : k'.Inv L F' := by
  refine hk.step hg.ok hg.track hphys hprocs (fun i hi hl hpt a ha => ?_) (fun i _ r pg hr hav => ?_)
    (fun e hu => (hg.new e hu).imp_right And.right) hp hfrom
  · exact hg.mem a (((hk.proc i hl).spaceOk hpt).tables.page _ ha).2 fun hw => hW _ hw i hi hl hpt ha
  · exact ((hk.proc i hr.1).page r pg hr.2).2 (hg.avail pg hav)

/-- A step that gives back pages that no other process holds. -/
theorem Inv.release (hk : k.Inv L F) (hf : Frees L k.phys F s' F' D fun _ => False)
    (hphys : k'.phys = s') (hprocs : k'.procs = Function.update k.procs c p)
    (hD : ∀ pg, D pg → ∀ i, i ≠ c → ∀ r, ¬k.Holds L i r pg)
    (hp : p.state ≠ .unused → ProcOk L s' F' c p)
    (hfrom : p.state ≠ .unused → ∀ r pg, p.holds L s'.mem c r = some pg → ∃ r', k.Holds L c r' pg) :
    k'.Inv L F' := by
  refine hk.step hf.ok hf.track hphys hprocs (fun i hi hl hpt a ha => ?_) (fun i hi r pg hr hav => ?_)
    (fun e hu => .inl (hf.table e hu)) hp fun hl r pg hr => .inl (hfrom hl r pg hr)
  · refine hf.mem a (fun hd => ?_) id
    obtain ⟨q, hq⟩ := holds_space (L := L) hl hpt ha.inSpace
    exact hD _ hd i hi _ hq
  · rcases (hf.avail pg).mp hav with h | h
    · exact ((hk.proc i hr.1).page r pg hr.2).2 h
    · exact hD pg h i hi r hr

/-- Two records that agree on what the invariant reads, and on the break. -/
structure Same (p p' : Proc) : Prop where
  live : p'.state ≠ .unused ↔ p.state ≠ .unused
  pid : p'.pid = p.pid
  parent : p'.parent = p.parent
  parentPid : p'.parentPid = p.parentPid
  userStackTop : p'.userStackTop = p.userStackTop
  heapEnd : p'.heapEnd = p.heapEnd
  pageTable : p'.pageTable = p.pageTable
  tf : p'.tf = p.tf
  imagePa : p'.imagePa = p.imagePa
  imageNpages : p'.imageNpages = p.imageNpages

theorem Same.refl (p : Proc) : Same p p := ⟨Iff.rfl, rfl, rfl, rfl, rfl, rfl, rfl, rfl, rfl, rfl⟩

theorem Same.trans {p p' p'' : Proc} (h : Same p p') (h' : Same p' p'') : Same p p'' :=
  ⟨h'.live.trans h.live, h'.pid.trans h.pid, h'.parent.trans h.parent, h'.parentPid.trans h.parentPid,
    h'.userStackTop.trans h.userStackTop, h'.heapEnd.trans h.heapEnd, h'.pageTable.trans h.pageTable,
    h'.tf.trans h.tf, h'.imagePa.trans h.imagePa, h'.imageNpages.trans h.imageNpages⟩

theorem Same.holds {p p' : Proc} (h : Same p p') : p'.holds L m i = p.holds L m i := by
  funext r
  cases r with
  | space q => simp only [Proc.holds, h.pageTable]
  | tf => simp only [Proc.holds, h.tf]
  | image n => simp only [Proc.holds, h.imagePa, h.imageNpages]

theorem Same.owns {p p' : Proc} (h : Same p p') {o : Nat} : Proc.Owns L i p' o ↔ Proc.Owns L i p o := by
  rw [Proc.Owns, Proc.Owns, h.pid, h.tf, h.parentPid]

theorem Same.procOk {p p' : Proc} (h : Same p p') (hp : ProcOk L s F i p) : ProcOk L s F i p' := by
  refine ⟨?_, ?_, ?_, ?_, h.pid ▸ hp.pid, h.parent ▸ hp.parent⟩
  · rw [h.holds]
    exact hp.page
  · rw [h.holds]
    exact hp.inj
  · rw [h.holds]
    exact fun r pg e hr hu he => h.owns.mpr (hp.owner r pg e hr hu he)
  · rw [h.pageTable]
    exact hp.map

/-- A step that writes neither memory nor what the invariant reads of a process. -/
theorem Inv.relabel (hk : k.Inv L F) (hphys : k'.phys = k.phys) (hs : ∀ i, Same (k.procs i) (k'.procs i)) :
    k'.Inv L F := by
  have hlive : ∀ i, k'.Live i ↔ k.Live i := fun i => (hs i).live
  have hh : ∀ i r pg, k'.Holds L i r pg ↔ k.Holds L i r pg := fun i r pg => by
    rw [Holds, Holds, hlive, hphys, (hs i).holds]
  refine ⟨hphys ▸ hk.ok, hphys ▸ hk.track, fun i hl => ?_, fun i j r r' pg hi hj => ?_⟩
  · rw [hphys]
    exact (hs i).procOk (hk.proc i ((hlive i).mp hl))
  · exact hk.apart i j r r' pg ((hh i r pg).mp hi) ((hh j r' pg).mp hj)

theorem Same.setProc (h : Same (k.procs i) p) (j : Fin procsMax) :
    Same (k.procs j) ((k.setProc i p).procs j) := by
  by_cases hj : j = i
  · subst hj
    rw [setProc_procs_self]
    exact h
  · rw [setProc_procs_of_ne hj]
    exact .refl _

/-- A step that leaves all processes alone. -/
structure Alone (L : Layout) (k : Kernel) (F : List Nat) (k' : Kernel) (F' : List Nat) : Prop where
  ok : AllocOk L k'.phys F'
  track : TrackOk L k'.phys F'
  procs : k'.procs = k.procs
  mem : ∀ i, k.Live i → (k.procs i).pageTable ≠ 0 → ∀ a,
    IsTable k.phys.mem (k.procs i).pageTable (pageOf a) → k'.phys.mem a = k.phys.mem a
  avail : ∀ i r pg, k.Holds L i r pg → ¬Avail L k'.phys F' pg
  table : ∀ e, (k'.phys.allocTable e).used →
    k'.phys.allocTable e = k.phys.allocTable e ∨ Avail L k.phys F (k'.phys.allocTable e).pa

theorem Alone.holds (h : Alone L k F k' F') (hk : k.Inv L F) : k'.Holds L i r pg ↔ k.Holds L i r pg := by
  unfold Holds Live
  rw [h.procs]
  refine and_congr_right fun hl => ?_
  rw [(hk.proc i hl).holds_congr fun a hpt ha => h.mem i hl hpt a ha]

theorem Alone.inv (h : Alone L k F k' F') (hk : k.Inv L F) : k'.Inv L F' := by
  refine ⟨h.ok, h.track, fun i hl => ?_, fun i j r r' pg hi hj => ?_⟩
  · rw [Live, h.procs] at hl
    rw [h.procs]
    exact (hk.proc i hl).congr (fun a hpt ha => h.mem i hl hpt a ha) (fun r pg hr => h.avail i r pg ⟨hl, hr⟩)
      h.table
  · exact hk.apart i j r r' pg ((h.holds hk).mp hi) ((h.holds hk).mp hj)

/-- A step that takes pages and writes to no table. -/
theorem Alone.of_grows (hk : k.Inv L F) (hg : Grows L o k.phys F k'.phys F' W)
    (hprocs : k'.procs = k.procs) (hW : ∀ pg, W pg → ∀ i, k.Live i → (k.procs i).pageTable ≠ 0 →
      ¬IsTable k.phys.mem (k.procs i).pageTable pg) : Alone L k F k' F' where
  ok := hg.ok
  track := hg.track
  procs := hprocs
  mem i hl hpt a ha :=
    hg.mem a (((hk.proc i hl).spaceOk hpt).tables.page _ ha).2 fun hw => hW _ hw i hl hpt ha
  avail i r pg hr hav := ((hk.proc i hr.1).page r pg hr.2).2 (hg.avail pg hav)
  table e hu := (hg.new e hu).imp_right And.right

/-- A step that gives back pages that no process holds. -/
theorem Alone.of_frees (hk : k.Inv L F) (hf : Frees L k.phys F k'.phys F' D fun _ => False)
    (hprocs : k'.procs = k.procs) (hD : ∀ pg, D pg → ∀ i r, ¬k.Holds L i r pg) : Alone L k F k' F' where
  ok := hf.ok
  track := hf.track
  procs := hprocs
  mem i hl hpt a ha := by
    refine hf.mem a (fun hd => ?_) id
    obtain ⟨q, hq⟩ := holds_space (L := L) hl hpt ha.inSpace
    exact hD _ hd i _ hq
  avail i r pg hr hav := ((hf.avail pg).mp hav).elim ((hk.proc i hr.1).page r pg hr.2).2
    fun hd => hD pg hd i r hr
  table e hu := .inl (hf.table e hu)

/-- A store to pages that are allocated and no tables. -/
theorem Inv.write (hk : k.Inv L F) (hphys : k'.phys = { k.phys with mem := m }) (hprocs : k'.procs = k.procs)
    (hm : ∀ a, ¬W (pageOf a) → m a = k.phys.mem a)
    (hW : ∀ pg, W pg → ¬Avail L k.phys F pg ∧ ∀ i, k.Live i → (k.procs i).pageTable ≠ 0 →
      ¬IsTable k.phys.mem (k.procs i).pageTable pg) : k'.Inv L F := by
  have hg : Grows L 0 k.phys F k'.phys F W := by
    rw [hphys]
    exact .write hk.ok hk.track hm fun pg hpg => (hW pg hpg).1
  exact (Alone.of_grows hk hg hprocs fun pg hpg => (hW pg hpg).2).inv hk

/-! ## What one process may change -/

/-- The pages that a step of process `c` may take: those of the allocator, and those of its own that it
gives back. The page of its trap frame is never given back. -/
def Loose (L : Layout) (k : Kernel) (F : List Nat) (c : Fin procsMax) (pg : Nat) : Prop :=
  Avail L k.phys F pg ∨ ∃ r, r ≠ .tf ∧ k.Holds L c r pg

/-- A step of process `c`: nothing but loose pages change hands. -/
structure Turn (L : Layout) (k : Kernel) (F : List Nat) (c : Fin procsMax) (k' : Kernel) (F' : List Nat) :
    Prop where
  avail : ∀ pg, Avail L k'.phys F' pg → Loose L k F c pg
  holds : ∀ i r pg, k'.Holds L i r pg → k.Holds L i r pg ∨ Loose L k F c pg
  table : ∀ e, (k'.phys.allocTable e).used →
    k'.phys.allocTable e = k.phys.allocTable e ∨ Loose L k F c (k'.phys.allocTable e).pa

theorem Turn.loose (h : Turn L k F c k' F') (hp : Loose L k' F' c pg) : Loose L k F c pg := by
  rcases hp with hp | ⟨r, hr, hp⟩
  · exact h.avail pg hp
  · exact (h.holds c r pg hp).elim (fun hp => .inr ⟨r, hr, hp⟩) id

theorem Turn.trans {k'' : Kernel} {F'' : List Nat} (h : Turn L k F c k' F') (h' : Turn L k' F' c k'' F'') :
    Turn L k F c k'' F'' where
  avail pg hp := h.loose (h'.avail pg hp)
  holds i r pg hp := (h'.holds i r pg hp).elim (h.holds i r pg) fun hp => .inr (h.loose hp)
  table e hu := by
    rcases h'.table e hu with he | hp
    · rw [he] at hu ⊢
      exact h.table e hu
    · exact .inr (h.loose hp)

theorem Turn.refl : Turn L k F c k F := ⟨fun _ h => .inl h, fun _ _ _ h => .inl h, fun _ _ => .inl rfl⟩

/-- The step of `c` that gives it a new record. -/
theorem Turn.of_step (hk : k.Inv L F) (hprocs : k'.procs = Function.update k.procs c p)
    (hmem : ∀ i, i ≠ c → k.Live i → (k.procs i).pageTable ≠ 0 → ∀ a,
      IsTable k.phys.mem (k.procs i).pageTable (pageOf a) → k'.phys.mem a = k.phys.mem a)
    (havail : ∀ pg, Avail L k'.phys F' pg → Loose L k F c pg)
    (htab : ∀ e, (k'.phys.allocTable e).used →
      k'.phys.allocTable e = k.phys.allocTable e ∨ Avail L k.phys F (k'.phys.allocTable e).pa)
    (hfrom : p.state ≠ .unused → ∀ r pg, p.holds L k'.phys.mem c r = some pg →
      k.Holds L c r pg ∨ Loose L k F c pg) : Turn L k F c k' F' := by
  refine ⟨havail, fun i r pg hp => ?_, fun e hu => (htab e hu).imp_right .inl⟩
  unfold Holds Live at hp
  rw [hprocs] at hp
  by_cases hi : i = c
  · subst hi
    rw [Function.update_self] at hp
    exact hfrom hp.1 r pg hp.2
  · rw [Function.update_of_ne hi] at hp
    refine .inl ⟨hp.1, ?_⟩
    rw [← hp.2, (hk.proc i hp.1).holds_congr fun a hpt ha => hmem i hi hp.1 hpt a ha]

/-- After a turn, a step that leaves all processes alone and gives back only what was loose before. -/
theorem Turn.alone {k₁ : Kernel} {F₁ : List Nat} (ht : Turn L k F c k₁ F₁) (h : Alone L k₁ F₁ k' F')
    (hk : k₁.Inv L F₁) (hav : ∀ pg, Avail L k'.phys F' pg → Loose L k F c pg) : Turn L k F c k' F' where
  avail := hav
  holds i r pg hp := ht.holds i r pg ((h.holds hk).mp hp)
  table e hu := by
    rcases h.table e hu with he | hp
    · rw [he] at hu ⊢
      exact ht.table e hu
    · exact .inr (ht.avail _ hp)

theorem Turn.grows {k₁ : Kernel} {F₁ : List Nat} (ht : Turn L k F c k₁ F₁) (h : Alone L k₁ F₁ k' F')
    (hk : k₁.Inv L F₁) (hg : Grows L o k₁.phys F₁ k'.phys F' W) : Turn L k F c k' F' :=
  ht.alone h hk fun pg hav => ht.avail pg (hg.avail pg hav)

/-- A step that writes neither memory nor what the invariant reads. -/
theorem Turn.relabel {k₁ : Kernel} {F₁ : List Nat} (ht : Turn L k F c k₁ F₁) (hphys : k'.phys = k₁.phys)
    (hs : ∀ i, Same (k₁.procs i) (k'.procs i)) : Turn L k F c k' F₁ where
  avail pg hav := by
    rw [hphys] at hav
    exact ht.avail pg hav
  holds i r pg hp := by
    refine ht.holds i r pg ⟨(hs i).live.mp hp.1, ?_⟩
    rw [← (hs i).holds, ← hphys]
    exact hp.2
  table e hu := by
    rw [hphys] at hu ⊢
    exact ht.table e hu

/-- An allocated page that no process holds. -/
structure Spare (L : Layout) (k : Kernel) (F : List Nat) (pg : Nat) : Prop where
  page : IsPage L pg
  taken : ¬Avail L k.phys F pg
  free : ∀ i r, ¬k.Holds L i r pg

/-- It stays so while processes take and give back other pages. -/
theorem Spare.turn (hs : Spare L k F pg) (h : Turn L k F c k' F') : Spare L k' F' pg := by
  have hl : ¬Loose L k F c pg := by
    rintro (hav | ⟨r, _, hr⟩)
    · exact hs.taken hav
    · exact hs.free _ _ hr
  exact ⟨hs.page, fun hav => hl (h.avail pg hav), fun i r hp => (h.holds i r pg hp).elim (hs.free i r) hl⟩

/-- A step of process `c` writes to loose pages, and to the trap frame on its kernel stack. -/
def Spares (L : Layout) (k : Kernel) (F : List Nat) (c : Fin procsMax) (k' : Kernel) : Prop :=
  ∀ a, ¬Loose L k F c (pageOf a) → ¬(L.tfStackFrame c ≤ a ∧ a < L.tfTop c) → k'.phys.mem a = k.phys.mem a

theorem Spares.of_mem (h : k'.phys.mem = k.phys.mem) : Spares L k F c k' := fun _ _ _ => by rw [h]

theorem Spares.trans {k₁ : Kernel} {F₁ : List Nat} (h : Spares L k F c k₁) (ht : Turn L k F c k₁ F₁)
    (h' : Spares L k₁ F₁ c k') : Spares L k F c k' :=
  fun a ha hf => (h' a (fun hl => ha (ht.loose hl)) hf).trans (h a ha hf)

/-- A step that takes pages of the allocator and writes to loose ones. -/
theorem Spares.of_grows (hg : Grows L o k.phys F k'.phys F' W) (hW : ∀ pg, W pg → Loose L k F c pg) :
    Spares L k F c k' := fun a ha _ => hg.mem a (fun hav => ha (.inl hav)) fun hw => ha (hW _ hw)

/-- A step that gives back loose pages. -/
theorem Spares.of_frees (hf : Frees L k.phys F k'.phys F' D fun _ => False) (hD : ∀ pg, D pg → Loose L k F c pg) :
    Spares L k F c k' := fun a ha _ => hf.mem a (fun hd => ha (hD _ hd)) id

/-- What another process holds is not loose. -/
theorem Inv.not_loose (hk : k.Inv L F) (hi : i ≠ c) (h : k.Holds L i r pg) : ¬Loose L k F c pg := by
  rintro (hav | ⟨r', _, hr'⟩)
  · exact ((hk.proc i h.1).page r pg h.2).2 hav
  · exact hi (hk.apart i c _ _ pg h hr')

/-- The pages of the other processes keep their contents. -/
theorem Spares.held (h : Spares L k F c k') (hk : k.Inv L F) (hi : i ≠ c) {a : Nat}
    (ha : k.Holds L i r (pageOf a)) : k'.phys.mem a = k.phys.mem a := by
  refine h a (hk.not_loose hi ha) fun hx => ?_
  have h1 := ((hk.proc i ha.1).page r _ ha.2).1.ge
  have h2 := L.tfTop_le c
  have h3 := Nat.div_mul_le_self a 4096
  unfold pageOf at h1
  omega

/-- The pages of their address spaces among them. -/
theorem Spares.space (h : Spares L k F c k') (hk : k.Inv L F) (hi : i ≠ c) (hl : k.Live i)
    (hpt : (k.procs i).pageTable ≠ 0) {a : Nat} (ha : InSpace k.phys.mem (k.procs i).pageTable (pageOf a)) :
    k'.phys.mem a = k.phys.mem a := by
  obtain ⟨q, hq⟩ := holds_space (L := L) hl hpt ha
  exact h.held hk hi hq

end Kernel

end RiscvOs
