import RiscvOs.Lemmas.Away

/-!
# Several programs that make calls

A process that has been switched away behind the `ecall` of its program is free again when its turn comes. So
runs of several processes can be put together from their calls and from timer interrupts.
-/

namespace RiscvOs

open ByteMem Outcome Kernel Lts

variable {L : Layout} {fs : Initramfs} {k k' : Kernel} {F F' : List Nat} {i c : Fin procsMax} {s s' : Machine}
  {t : Trap} {w : BitVec 64}

namespace Machine

/-- Process `i` waits for its turn behind the `ecall` of its program. -/
structure Parked (k : Kernel) (i : Fin procsMax) : Prop where
  live : k.Live i
  code : ∃ data, HasCode k i (program data)
  pc : loadFrame k.phys.mem (k.procs i).tf tfPc = BitVec.ofNat 64 userBase + 4

theorem Parked.kept (h : Parked k i) (hk : k.Valid L F) (hkept : Kept k k' i) : Parked k' i := by
  obtain ⟨data, hcode⟩ := h.code
  refine ⟨hkept.live, ⟨data, hcode.congr (hk.proc i h.live) (hk.full i h.live) hkept.pageTable hkept.space⟩, ?_⟩
  rw [hkept.loadFrame]
  exact h.pc

/-- It is free when it goes on. -/
theorem Parked.resume (h : Parked k i) (hr : Running L k F i) (hs : s = resume L k s.input w) : Free L s F i := by
  obtain ⟨data, hcode⟩ := h.code
  have hkernel : s.kernel = k := by rw [hs]; rfl
  have hpc : s.user tfPc = BitVec.ofNat 64 userBase + 4 := by
    rw [hs, ← h.pc]
    show k.userReturn L w tfPc = _
    rw [userReturn_kept (by decide), hr.cur]
  refine ⟨by rwa [hkernel], ⟨_, by rw [hkernel]; exact hcode⟩, ?_⟩
  rw [hkernel, hpc]
  exact noEcall_next hr hcode

/-- A step after which process `i` has its turn. -/
theorem Parked.turn (hfs : ∀ f ∈ fs, f.2.Linked) (hr : Running L s.kernel F c) (h : s.CarefulStep L fs t s')
    (hp : Parked s.kernel i) (hi : i ≠ c) (hl : s'.kernel.Live i) (hcur : s'.kernel.cur = i) :
    ∃ F', Free L s' F' i := by
  obtain ⟨⟨F', c', hr'⟩, ho, hres⟩ := h.1.served hfs hr h.2
  obtain rfl := hr'.cur.symm.trans hcur
  obtain ⟨w, hw⟩ := hres.resolve_left fun he => hi (hcur.symm.trans he)
  exact ⟨F', (hp.kept hr.toValid (ho _ hi hp.live hl)).resume hr' hw⟩

/-- A step after which process `i` still waits. -/
theorem Parked.step (hfs : ∀ f ∈ fs, f.2.Linked) (hr : Running L s.kernel F c) (h : s.CarefulStep L fs t s')
    (hp : Parked s.kernel i) (hi : i ≠ c) (hl : s'.kernel.Live i) : Parked s'.kernel i :=
  hp.kept hr.toValid ((h.1.served hfs hr h.2).others i hi hp.live hl)

/-- The timer fires behind the `ecall`. -/
theorem Free.timer (hfs : ∀ f ∈ fs, f.2.Linked) (h : Free L s F c) : ∃ t s', s.CarefulStep L fs t s' ∧
    t.request = none ∧ s'.kernel.table = s.kernel.table.yield ∧ (s'.kernel.cur ≠ c → Parked s'.kernel c) := by
  obtain ⟨bytes, hcode⟩ := h.code
  obtain ⟨m, hstores, hm⟩ := exists_program h.running hcode (program [])
  have hr : Running L { s.kernel with phys := { s.kernel.phys with mem := m } } F c :=
    h.running.userWrites (stores_userWrites h.running hstores)
  have hruns : s.Runs L ⟨m, fun _ => BitVec.ofNat 64 userBase + 4, .timer, []⟩ :=
    ⟨hstores, fun h' => absurd h' (by rw [h.noEcall]; decide), fun h => by cases h⟩
  obtain ⟨s', hs'⟩ : ∃ s', s.trap L fs ⟨m, fun _ => BitVec.ofNat 64 userBase + 4, .timer, []⟩ = .ok s' := ⟨_, rfl⟩
  have hcareful : s.CarefulStep L fs ⟨m, fun _ => BitVec.ofNat 64 userBase + 4, .timer, []⟩ s' :=
    ⟨⟨hruns, hs'⟩, fun _ he => by cases he⟩
  refine ⟨_, s', hcareful, rfl, ?_, fun hleft => ?_⟩
  · obtain ⟨ev, he, ht⟩ := trap_effect (by rw [h.running.current]; rfl) hs'
    cases he with
    | timer _ => exact ht
    | ecall hc => cases hc
  · have hkept := hcareful.1.left hfs h.running hcareful.2 hleft fun _ he => by cases he
    have hk := hruns.inKernel h.running
    have hcode' : HasCode (s.inKernel L ⟨m, fun _ => BitVec.ofNat 64 userBase + 4, .timer, []⟩) c (program []) := by
      unfold inKernel
      rw [h.running.cur]
      exact hm.enter hr.toInv hr.live hr.pageTable hr.live
    refine Parked.kept ⟨hk.live, ⟨[], hcode'⟩, ?_⟩ hk.toValid hkept
    exact congrFun (hruns.inKernel_frame h.running) tfPc

end Machine

/-! ## Children -/

namespace Kernel.Forked

variable {tf root : Nat} {bytes : Mem} (hf : Forked L k F i tf root k' F') (hk : k.Inv L F) (hl : k.Live k.cur)
  (hpt : (k.procs k.cur).pageTable ≠ 0)

include hf

theorem procs_child : k'.procs i = k.forkChild i tf root := by
  rw [hf.state]
  exact setProc_procs_self

/-- The child begins behind the `ecall` of its parent. -/
theorem child_pc : loadFrame k'.phys.mem (k'.procs i).tf tfPc =
    loadFrame k.phys.mem (k.procs k.cur).tf tfPc + 4 := by
  have hw := hf.frames.child tfEpc (by decide)
  rw [if_neg (by decide), if_pos rfl] at hw
  rw [hf.procs_child]
  show BitVec.ofNat 64 (tfWord k'.phys.mem tf tfEpc) = BitVec.ofNat 64 (tfWord k.phys.mem (k.procs k.cur).tf tfEpc) + 4
  rw [hw]
  apply BitVec.eq_of_toNat_eq
  rw [BitVec.toNat_ofNat, Nat.mod_mod, BitVec.toNat_add, BitVec.toNat_ofNat, Nat.mod_add_mod]
  rfl

include hk hl hpt

/-- The child has a copy of its parent's program. -/
theorem hasCode (hi : k.Initial k.cur) (hc : HasCode k k.cur bytes) : HasCode k' i bytes := by
  have hroot : (k'.procs i).pageTable = root := by rw [hf.procs_child]; rfl
  obtain ⟨fr, hfr⟩ := hc.code.user
  have hpage := ((hk.proc _ hl).spaceOk hpt).page fr (inSpace_of_frame hfr.frame)
  have hcopy : k.CopyPage (vpn userBase) := by
    refine (copyPage_iff ?_ ?_ (by decide) (Nat.le_refl _) ?_).mpr ?_
    · rw [hi.heap]
      decide
    · rw [hi.top]
      decide
    · rw [hi.heap, hi.top]
      decide
    · rw [walkPage_eq, pteNext_of_userFrame hfr.frame]
      exact hpage.1.ne_zero
  refine ⟨by rw [hroot]; exact hf.leaf _ hcopy, fun pg x hpg hx => ?_⟩
  rw [hroot] at hpg
  rw [hf.copy _ pg fr x hcopy hpg hfr.frame hx]
  exact hc.byte fr x hfr.frame hx

end Kernel.Forked

namespace Machine

/-- A child of the program waits behind the `ecall`, with the pages that its parent began with. -/
theorem Step.forked (hr : Running L s.kernel F c) (h : s.Step L fs t s') (hreq : t.request = some .fork)
    (hslot : s.kernel.freeSlot = some i) (hi : s.kernel.Initial c) (hcode : HasCode (s.inKernel L t) c (program []))
    (hpc : t.frame tfPc = BitVec.ofNat 64 userBase) : Parked s'.kernel i ∧ s'.kernel.Initial i := by
  obtain ⟨hruns, htrap⟩ := h
  have hk := hruns.inKernel hr
  have hcur := hk.cur
  have hl : (s.inKernel L t).Live (s.inKernel L t).cur := hcur.symm ▸ hk.live
  have hpt := hk.full _ hl
  have hinit : (s.inKernel L t).Initial (s.inKernel L t).cur := by
    rw [hcur]
    exact hi.congr (hruns.inKernel_sameMap hr c) hr.live
  cases hcause : t.cause with
  | timer => simp [Trap.request, hcause] at hreq
  | ecall =>
      have hcall : callOf t.frame = some .fork := by simpa [Trap.request, hcause] using hreq
      unfold trap at htrap
      simp only [hcause, hcall, Kernel.handleSyscall, bind_eq_ok, Prod.exists, Except.ok.injEq, Prod.mk.injEq] at htrap
      obtain ⟨ret, k', input, ⟨ret₀, k₀, hfork, rfl, rfl, rfl⟩, htrap⟩ := htrap
      obtain ⟨_, F', hr'⟩ := hk.sysFork_copied hfork
      rcases sysFork_spec hk.toInv hl hpt hfork with ⟨hfull, -, -⟩ | ⟨j, tf, root, F₁, rfl, hf⟩
      · rw [show (s.inKernel L t).freeSlot = s.kernel.freeSlot from rfl, hslot] at hfull
        cases hfull
      obtain rfl : i = j := Option.some.inj (hslot.symm.trans hf.slot)
      have hic : i ≠ c := fun he => freeSlot_unused hf.slot (he ▸ hk.live)
      have hlive : k₀.Live i := by
        rw [Live, hf.procs_child]
        simp [forkChild]
      have hparked : Parked k₀ i := by
        refine ⟨hlive, ⟨[], hf.hasCode hk.toInv hl hpt hinit (by rw [hcur]; exact hcode)⟩, ?_⟩
        rw [hf.child_pc, hcur, inKernel_procs, hruns.inKernel_frame hr, hpc]
      have hres := hr'.setResult_kept hic hlive (i + 1)
      simp only [Except.ok.injEq] at htrap
      rw [← htrap, hr.cur]
      exact ⟨hparked.kept hr'.toValid hres,
        (hf.initial hk.toInv hl hpt hinit).congr (hr'.toValid.setResult_sameMap (i + 1) i) hlive⟩

end Machine

end RiscvOs
