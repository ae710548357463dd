import RiscvOs.Lemmas.Restart

/-!
# `sys_wait` and `sys_read` over a switch

Both leave the kernel through `yield` while they wait. The call that is made when the process has its next turn has
`argc` for its first argument: `sys_wait` stores the exit code there, and `sys_read` fails.
-/

namespace RiscvOs

open ByteMem Outcome Kernel Lts

variable {L : Layout} {fs : Initramfs} {k k' : Kernel} {F : List Nat} {c : Fin procsMax} {s s' s'' s₀ s₁ : Machine}
  {t t' : Trap} {l l₀ : List Trap} {f g : Frame} {p : Proc} {status fd buf len : Nat} {ret : SysRet}
  {input input' : List UInt8}

/-! ## `sys_wait` -/

theorem callOf_wait : callOf f = some (.wait status) ↔ (f 17).toNat = 260 ∧ (f 10).toNat = status := by
  constructor
  · intro h
    unfold callOf at h
    dsimp only at h
    split at h <;> first
      | exact ⟨‹_›, Call.wait.inj (Option.some.inj h)⟩
      | cases h
  · rintro ⟨h, rfl⟩
    unfold callOf
    rw [h]
    rfl

/-- The `int` that `user_return` loads from `argc`. -/
def Proc.argcWord (p : Proc) : Nat := (p.argc % 2 ^ 32).toNat

theorem Proc.argcWord_lt (p : Proc) : p.argcWord < 2 ^ 64 := by
  unfold argcWord
  omega

namespace Machine

theorem Reloaded.a0_toNat (h : Reloaded p f g) : (g 10).toNat = p.argcWord := by
  rw [h.a0, BitVec.toNat_ofNat]
  exact Nat.mod_eq_of_lt p.argcWord_lt

theorem Reloaded.wait (h : Reloaded p f g) (hf : callOf f = some (.wait status)) :
    callOf g = some (.wait p.argcWord) := by
  rw [callOf_wait, h.kept 17 (by decide)]
  exact ⟨(callOf_wait.mp hf).1, h.a0_toNat⟩

theorem plain_wait (hf : callOf f = some (.wait status)) : Plain L fs c p f := by
  intro s s' t F _ hrel hframe _ _ call hcall
  refine .inr ⟨p.argcWord, ?_⟩
  have hc := hrel.wait hf
  rw [← hframe] at hc
  unfold Trap.request at hcall
  split at hcall
  · cases hcall
  · exact Option.some.inj (hcall.symm.trans hc)

end Machine

/-- A zombie that is freed without a status takes no page of its parent with it. -/
theorem Kernel.Running.sysWait_null (h : Running L k F c)
    (hc : ∀ z, k.findZombie = some z → ChildrenExeced L k z) (hs : k.sysWait L 0 = .ok (ret, k')) : Stays k k' c := by
  rcases h.sysWait_cases (.inl rfl) hc hs with ⟨_, _, hy⟩ | ⟨z, k₁, F', -, hstore, hreap⟩
  · have hkept := yield_kept (L := L) h.live
    rw [hy] at hkept
    exact hkept.stays
  · obtain rfl : k = k₁ := Except.ok.inj ((if_pos rfl).symm.trans hstore)
    exact (h.kept_frees hreap.reaped.frees h.live (fun r pg => hreap.held c r pg hreap.ne)
      (by rw [hreap.procs, Function.update_of_ne hreap.ne])).stays

namespace Machine

/-- The first thing that a process does where it stands, if it comes back, is a `sys_wait` without a status. -/
theorem Step.null_wait (hr : Running L s.kernel F c) (hfs : ∀ f ∈ fs, f.2.Linked) (h : s.CarefulStep L fs t s')
    (hm : t.mem = s.kernel.phys.mem) (hreq : ∀ call, t.request = some call → call = .wait 0)
    (hcur : s'.kernel.cur = c) : Stays s.kernel s'.kernel c := by
  obtain ⟨⟨hruns, htrap⟩, hcare⟩ := h
  have hk := hruns.inKernel hr
  have hin := inKernel_stays hr hruns hm
  unfold trap at htrap
  cases hcause : t.cause with
  | timer =>
      simp only [hcause, Except.ok.injEq] at htrap
      have hs' : s'.kernel = ((s.inKernel L t).yield L).1 := by
        rw [← htrap]
        split <;> rfl
      rw [hs']
      exact hin.trans (yield_kept hk.live).stays hr.spaceOk
  | ecall =>
      simp only [hcause] at htrap
      split at htrap
      · cases htrap
      rename_i call hcall
      simp only [bind_eq_ok, Prod.exists] at htrap
      obtain ⟨ret, k', input, hsys, htrap⟩ := htrap
      have hreq' : t.request = some call := by rw [Trap.request, hcause, hcall]
      have hcc := hcare call hreq'
      obtain rfl := hreq call hreq'
      have hserved := (hk.handleSyscall_served hfs (by rwa [hr.cur] at hcc) hsys).running
      simp only [Kernel.handleSyscall, bind_eq_ok, Prod.exists, Except.ok.injEq, Prod.mk.injEq] at hsys
      obtain ⟨_, _, hwait, rfl, rfl, _⟩ := hsys
      have hstays := hin.trans (hk.sysWait_null hcc.2 hwait) hr.spaceOk
      obtain ⟨F', c', hr', hval⟩ := hserved
      split at htrap
      · rw [← Except.ok.inj htrap]
        exact hstays
      · obtain rfl := hval _ rfl
        rw [← Except.ok.inj htrap, hr.cur]
        exact hstays.trans (setResult_stays hr' _) hr.spaceOk

/-- Where a process stands that waits. -/
theorem CarefulStep.wait_stands (hfs : ∀ f ∈ fs, f.2.Linked) (hr : Running L s.kernel F c)
    (hs : s.CarefulStep L fs t s₁) (hreq : t.request = some (.wait status)) (hne : s₁.kernel.cur ≠ c) (hrun : Run (Pending L fs c) s₁ l s')
    (hcur : s'.kernel.cur = c) : Stays (s.atTrap t) s₁.kernel c ∧ ∃ F', Running L s'.kernel F' c ∧
      Stuck s₁.kernel c t.frame s' ∧ Machine.atEcall s'.kernel (s'.user tfPc) := by
  obtain ⟨hcause, hcall⟩ := Trap.request_ecall hreq
  have hplain : ∀ call, t.request = some call → call = .yield ∨ ∃ status, call = .wait status :=
    fun call hc => .inr ⟨status, Option.some.inj (hc.symm.trans hreq)⟩
  have hsame : s.SameProgram L fs t := fun _ _ _ he => by
    rw [hreq] at he
    cases he
  have hat := hr.userWrites (hs.1.1.userWrites hr)
  have h1 : Stays (s.atTrap t) s₁.kernel c :=
    (atTrap_stays hr hs.1.1).trans (hs.1.left hfs hr hs.2 hne hplain).stays hat.spaceOk
  refine ⟨h1, Step.stands hfs hr hs hsame hne ?_ (plain_wait hcall) hrun hcur⟩
  rw [← hs.1.1.call hcause]
  exact atEcall_congr hat.spaceOk hat.active h1.pageTable h1.space

end Machine

theorem callOf_read : callOf f = some (.read fd buf len) ↔
    (f 17).toNat = 63 ∧ (f 10).toNat = fd ∧ (f 11).toNat = buf ∧ (f 12).toNat = len := by
  constructor
  · intro h
    unfold callOf at h
    dsimp only at h
    split at h <;> first
      | exact ⟨‹_›, Call.read.inj (Option.some.inj h)⟩
      | cases h
  · rintro ⟨h, rfl, rfl, rfl⟩
    unfold callOf
    rw [h]
    rfl

/-- A process with arguments passes another descriptor than 0, and one without them passes NULL. -/
theorem readRefused_args (h : p.ArgsOk) {argv : Nat} (hargv : p.argvPtr = 0 → argv = 0) :
    readRefused p.argcWord argv len = true := by
  unfold readRefused Proc.argcWord
  simp only [Bool.or_eq_true, bne_iff_ne, beq_iff_eq]
  have hge := h.ge
  have hlt := h.lt
  by_cases h0 : p.argc = 0
  · exact .inl (.inr (hargv (h.argv (by omega))))
  · exact .inl (.inl (by omega))

namespace Kernel

/-- A read that is switched away has taken one character. -/
theorem readLoop_switched {i n : Nat} (hn : n ≠ 0) (h : k.readLoop L buf i n input = .ok (.switched, k', input')) :
    ∃ b k₁, input = b :: input' ∧ b ≠ newline ∧ k.storeU8 L (buf + i) b = .ok k₁ ∧ k' = (k₁.yield L).1 := by
  have hsw : k.table.Switches := by
    rcases readLoop_table h with ⟨-, hsw, -⟩ | ⟨m, hret, -⟩
    · exact hsw
    · cases hret
  obtain ⟨n, rfl⟩ := Nat.exists_eq_succ_of_ne_zero hn
  cases input with
  | nil => cases h
  | cons b input =>
      simp only [readLoop, bind_eq_ok] at h
      obtain ⟨k₁, h1, h⟩ := h
      split at h
      · cases h
      · rename_i hb
        have hy := yield_switched (k := k₁) (L := L)
        rw [storeU8_table h1, decide_eq_true hsw] at hy
        split at h
        · rename_i k₂ hk
          simp only [Except.ok.injEq, Prod.mk.injEq, true_and] at h
          exact ⟨b, k₁, by rw [h.2], hb, h1, by rw [hk, h.1]⟩
        · rename_i k₂ hk
          rw [hk] at hy
          cases hy

theorem Running.sysRead_switched (h : Running L k F c) (hok : readRefused fd buf len ∨ buf + len ≤ kernelBase)
    (hs : k.sysRead L fd buf len input = .ok (.switched, k', input')) :
    ∃ b k₁, input = b :: input' ∧ b ≠ newline ∧ buf < kernelBase ∧ k.storeU8 L buf b = .ok k₁ ∧
      UserWrites k c k₁ ∧ k' = (k₁.yield L).1 := by
  unfold sysRead at hs
  split at hs
  · cases hs
  · rename_i href
    have hlen : len ≠ 0 := by
      rintro rfl
      simp [readRefused] at href
    have hle := hok.resolve_left href
    obtain ⟨b, k₁, hin, hb, hstore, hk'⟩ := readLoop_switched hlen hs
    exact ⟨b, k₁, hin, hb, by omega, hstore, storeU8_spec h.toInv h.live h.pageTable h.active (by omega) hstore, hk'⟩

/-- A character that is stored elsewhere leaves the `ecall` alone. -/
theorem Running.storeU8_atEcall (h : Running L k F c) {va : Nat} {b : UInt8} {pc : BitVec 64} (hva : va < kernelBase)
    (hs : k.storeU8 L va b = .ok k') (hout : ∀ j < 4, (pc.toNat + j) % 2 ^ 64 ≠ va) (hat : Machine.atEcall k pc) :
    Machine.atEcall k' pc := by
  have hw := storeU8_spec h.toInv h.live h.pageTable h.active hva hs
  have hleaf : leafAt k'.phys.mem k'.satp = leafAt k.phys.mem k.satp := by
    rw [show k'.satp = k.satp by rw [hw.state], h.active]
    exact hw.leafAt h.toInv h.live h.pageTable h.live h.pageTable
  have hacc : ∀ va', Machine.userAccess k' va' pteX = Machine.userAccess k va' pteX := fun va' => by
    unfold Machine.userAccess Phys.translate
    rw [leafPte_eq, leafPte_eq, hleaf]
  unfold Machine.atEcall at hat ⊢
  rw [List.all_eq_true] at hat ⊢
  intro j hj
  have hj4 : j < 4 := List.mem_range.mp hj
  have hjat := hat j hj
  rw [hacc]
  cases ha : Machine.userAccess k ((pc.toNat + j) % 2 ^ 64) pteX with
  | none => rw [ha] at hjat; exact hjat
  | some pa =>
      rw [ha] at hjat
      dsimp only at hjat ⊢
      have hsame : k'.phys.mem pa = k.phys.mem pa := by
        unfold storeU8 at hs
        rw [Nat.mod_eq_of_lt (show va < 2 ^ 64 by unfold kernelBase at hva; omega)] at hs
        split at hs
        · rename_i pa' htr
          obtain ⟨_, hs⟩ := ite_error_eq_ok.mp hs
          rw [← Except.ok.inj hs]
          refine Function.update_of_ne (fun he => ?_) _ _
          subst he
          -- both addresses are those of one byte of one frame
          rw [h.active] at htr
          obtain ⟨pg, hf, hpa⟩ := h.spaceMap.translate hva htr
          obtain ⟨pg', hf', hpa'⟩ := Machine.userAccess_user ha
          rw [h.active] at hf'
          have h1 := (h.spaceOk.page pg (inSpace_of_frame hf)).1.aligned
          have h2 := (h.spaceOk.page pg' (inSpace_of_frame hf')).1.aligned
          obtain rfl : pg = pg' := by omega
          have hvpn := vpn_eq_iff.mp (h.spaceOk.frame_inj hf hf')
          have hrange : (pc.toNat + j) % 2 ^ 64 < 2 ^ 38 ∨ 2 ^ 64 - 2 ^ 38 ≤ (pc.toNat + j) % 2 ^ 64 := by
            unfold Machine.userAccess Phys.translate at ha
            split at ha
            · simp only [Option.ite_none_right_eq_some, Bool.and_eq_true, Bool.or_eq_true, decide_eq_true_eq] at ha
              exact ha.1.1.1
            · cases ha
          have := hout j hj4
          unfold kernelBase at hva
          omega
        · cases hs
      rw [hsame]
      exact hjat

end Kernel

namespace Machine

theorem Reloaded.read (h : Reloaded p f g) (hf : callOf f = some (.read fd buf len)) :
    callOf g = some (.read p.argcWord (g 11).toNat len) := by
  obtain ⟨h17, -, -, h12⟩ := callOf_read.mp hf
  rw [callOf_read, h.kept 17 (by decide), h.kept 12 (by decide)]
  exact ⟨h17, h.a0_toNat, rfl, h12⟩

theorem Reloaded.refused (h : Reloaded p f g) (hp : p.ArgsOk) : readRefused p.argcWord (g 11).toNat len = true :=
  readRefused_args hp fun h0 => by
    rw [show g 11 = _ from h.a1, h0]
    rfl

/-- A read that is refused comes back at once. -/
theorem Step.refused (hr : Running L s.kernel F c) (h : s.Step L fs t s')
    (hreq : t.request = some (.read fd buf len)) (href : readRefused fd buf len = true) :
    s'.kernel.cur = c ∧ s'.user 10 = BitVec.ofNat 64 (neg64 1) ∧ s'.user tfPc = t.frame tfPc + 4 ∧
      s'.input = s.input := by
  obtain ⟨hcause, hcall⟩ := Trap.request_ecall hreq
  have hsys : (s.inKernel L t).handleSyscall L fs s.input t.now (.read fd buf len) =
      .ok (.value (neg64 1), s.inKernel L t, s.input) := by
    simp only [Kernel.handleSyscall, sysRead, href, if_true]
  have htrap := h.2
  rw [trap_value hcause hcall hsys, hr.cur] at htrap
  rw [← Except.ok.inj htrap]
  exact ⟨goOn_cur.trans (h.1.inKernel hr).cur, goOn_a0, goOn_pc, rfl⟩

theorem plain_read (hf : callOf f = some (.read fd buf len)) (hp : p.ArgsOk) : Plain L fs c p f := by
  intro s s' t F hr hrel hframe hs hne call hcall
  have hread : t.request = some (.read p.argcWord (t.frame 11).toNat len) := by
    have hcause := (Trap.request_ecall hcall).1
    rw [Trap.request, hcause, hframe]
    exact hrel.read hf
  have href : readRefused p.argcWord (t.frame 11).toNat len = true := by
    rw [hframe]
    exact hrel.refused hp
  exact absurd (Step.refused hr hs.1 hread href).1 hne

/-- What a read has done when it is switched away. -/
theorem Step.read_left (hr : Running L s.kernel F c) (hfs : ∀ f ∈ fs, f.2.Linked) (h : s.CarefulStep L fs t s₁)
    (hreq : t.request = some (.read fd buf len)) (hne : s₁.kernel.cur ≠ c) :
    ∃ b k₁, s.input = b :: s₁.input ∧ b ≠ newline ∧ buf < kernelBase ∧ (s.inKernel L t).storeU8 L buf b = .ok k₁ ∧
      UserWrites (s.inKernel L t) c k₁ ∧ s₁.kernel = (k₁.yield L).1 := by
  obtain ⟨⟨hruns, htrap⟩, hcare⟩ := h
  have hk := hruns.inKernel hr
  have hcc := hcare _ hreq
  rw [hr.cur] at hcc
  obtain ⟨hcause, hcall⟩ := Trap.request_ecall hreq
  unfold trap at htrap
  simp only [hcause, hcall, bind_eq_ok, Prod.exists] at htrap
  obtain ⟨ret, k', input, hsys, htrap⟩ := htrap
  cases ret with
  | value a0 =>
      obtain ⟨F', c', hr', hval⟩ := (hk.handleSyscall_served hfs hcc hsys).running
      obtain rfl := hval a0 rfl
      simp only [Except.ok.injEq] at htrap
      rw [← htrap] at hne
      exact absurd hr'.cur hne
  | switched =>
      simp only [Except.ok.injEq] at htrap
      obtain ⟨b, k₁, hin, hb, hbuf, hstore, hw, rfl⟩ := hk.sysRead_switched
        (hcc.imp_left fun h => h) hsys
      rw [← htrap]
      exact ⟨b, k₁, hin, hb, hbuf, hstore, hw, rfl⟩

/-- Where a process stands that has read a character. -/
theorem CarefulStep.read_stands (hfs : ∀ f ∈ fs, f.2.Linked) (hr : Running L s.kernel F c) (hargs : s.kernel.ArgsOk)
    (hs : s.CarefulStep L fs t s₁) (hreq : t.request = some (.read fd buf len)) (hne : s₁.kernel.cur ≠ c)
    (hcode : ∀ j < 4, ((t.frame tfPc).toNat + j) % 2 ^ 64 ≠ buf) (hrun : Run (Pending L fs c) s₁ l s')
    (hcur : s'.kernel.cur = c) : (s₁.kernel.procs c).ArgsOk ∧ ∃ F', Running L s'.kernel F' c ∧
      Stuck s₁.kernel c t.frame s' ∧ Machine.atEcall s'.kernel (s'.user tfPc) := by
  obtain ⟨hcause, hcall⟩ := Trap.request_ecall hreq
  have hsame : s.SameProgram L fs t := fun _ _ _ he => by
    rw [hreq] at he
    cases he
  have hk := hs.1.1.inKernel hr
  have hat := hr.userWrites (hs.1.1.userWrites hr)
  obtain ⟨b, k₁, -, -, hbuf, hstore, hw, hs₁⟩ := Step.read_left hr hfs hs hreq hne
  have hargs₁ : (s₁.kernel.procs c).ArgsOk :=
    Step.args hfs hr hs hargs _ (Step.stuck hfs hr hs hsame hne).stays.live
  refine ⟨hargs₁, Step.stands hfs hr hs hsame hne ?_ (plain_read hcall hargs₁) hrun hcur⟩
  -- the `ecall` is still there
  have h1 : Machine.atEcall (s.inKernel L t) (t.frame tfPc) := by
    rw [← hs.1.1.call hcause]
    have hstays := atTrap_stays hr hs.1.1
    exact atEcall_congr hat.spaceOk hat.active hk.active hstays.space
  have h2 := hk.storeU8_atEcall hbuf hstore hcode h1
  have hr₁ := hk.userWrites hw
  have h3 := (yield_kept (L := L) hr₁.live).stays
  rw [← hs₁] at h3
  rw [← h2]
  exact atEcall_congr hr₁.spaceOk hr₁.active h3.pageTable h3.space

end Machine

namespace Machine

/-- The shell has forked in its first call. -/
structure FirstFork (L : Layout) (s₀ s : Machine) (t₀ : Trap) (F : List Nat) : Prop where
  start : s₀.Start L tinyFs
  step : s₀.CarefulStep L tinyFs t₀ s
  input : s.input = s₀.input
  free : Free L s F 1
  parked : Parked s.kernel 2
  initial : s.kernel.Initial 2
  table : s.kernel.table = Table.boot.fork 2
  argc : (s.kernel.procs 1).argc = 0
  tf : ∀ i, i = 0 ∨ i = 1 → (s.kernel.procs i).tf = L.tfStackFrame i

theorem exists_forked (L : Layout) (input : List UInt8) : ∃ (s₀ s : Machine) (t₀ : Trap) (F : List Nat),
    FirstFork L s₀ s t₀ F ∧ s.input = input := by
  obtain ⟨s₀, F, hstart, hinput, hfree, hboot, hroom⟩ := exists_shell L input
  have hinit := hboot.initial hboot.live_shell
  obtain ⟨t₀, s, F₁, h0, hreq, hfree₁, -, -, ht₁, hcode, hpc⟩ :=
    hfree.fork tinyFs hinit hboot.freeSlot (Nat.le_trans (by decide) hroom)
  obtain ⟨hchild, hinit₁⟩ := h0.forked hfree.running hreq hboot.freeSlot hinit hcode hpc
  obtain ⟨m, hm⟩ := hstart.kernel
  have hargs := (kernelMain_noArgs hm 1).1
  have htable : s.kernel.table = Table.boot.fork 2 := by rw [ht₁, hstart.table]
  have hcareful : s₀.CarefulStep L tinyFs t₀ s := ⟨h0, careful_of hreq trivial⟩
  have hidle : (s.kernel.procs 0).tf = L.tfStackFrame 0 := by
    have hl₀ : s₀.kernel.Live 0 := hboot.live_iff.mpr (.inl rfl)
    have hl : s.kernel.Live 0 := by
      show (s.kernel.table.slots 0).state ≠ .unused
      rw [htable]
      decide
    rw [((hcareful.1.served tinyFs_linked hfree.running hcareful.2).others 0 (by decide) hl₀ hl).tf]
    exact hboot.tf 0 hl₀
  obtain ⟨hcause, hcall⟩ := Trap.request_ecall hreq
  have hk := h0.1.inKernel hfree.running
  have htrap := h0.2
  unfold trap at htrap
  simp only [hcause, hcall, bind_eq_ok, Prod.exists] at htrap
  obtain ⟨ret, k', input', hsys, htrap⟩ := htrap
  have hframed := hk.handleSyscall_framed (show Kernel.Careful _ _ 1 .fork from trivial)
    (fun _ _ _ he => by cases he) hsys
  simp only [Kernel.handleSyscall, bind_eq_ok, Prod.exists, Except.ok.injEq, Prod.mk.injEq] at hsys
  obtain ⟨_, k₁, hfork, rfl, rfl, rfl⟩ := hsys
  have hs : s.input = s₀.input ∧ s.kernel.procs = k₁.procs := by
    split at htrap
    · rw [← Except.ok.inj htrap]
      exact ⟨rfl, rfl⟩
    · rw [← Except.ok.inj htrap]
      exact ⟨rfl, goOn_procs⟩
  refine ⟨s₀, s, t₀, F₁, ⟨hstart, hcareful, hs.1, hfree₁, hchild, hinit₁, htable, ?_, fun i hi => ?_⟩,
    hs.1.trans hinput⟩
  · rw [hs.2, hframed.argc]
    exact hargs
  · rcases hi with rfl | rfl
    · exact hidle
    · rw [hs.2, hframed.tf]
      exact hboot.tf 1 hboot.live_shell

/-- A call of the shell switches to its child, which the timer then stops. -/
theorem Parked.pending {F : List Nat} (hr : Running Layout.kernelMap s.kernel F 1) (hp : Parked s.kernel 2)
    (htab : s.kernel.table = Table.boot.fork 2) (h : s.CarefulStep Layout.kernelMap tinyFs t s₁)
    (htab₁ : s₁.kernel.table = s.kernel.table.yield) : s₁.kernel.cur ≠ 1 ∧ ∃ t₁ s',
      Run (Pending Layout.kernelMap tinyFs 1) s₁ [t₁] s' ∧ s'.kernel.table = (Table.boot.fork 2).yield.yield := by
  rw [htab] at htab₁
  have hcur₁ : s₁.kernel.cur = 2 := by
    show s₁.kernel.table.current = 2
    rw [htab₁]
    decide
  have hl : s₁.kernel.Live 2 := by
    show (s₁.kernel.table.slots 2).state ≠ .unused
    rw [htab₁]
    decide
  obtain ⟨F₂, hfree₂⟩ := hp.turn tinyFs_linked hr h (by decide) hl hcur₁
  obtain ⟨t₁, s', h2, -, ht₃, -⟩ := hfree₂.timer tinyFs_linked
  rw [htab₁] at ht₃
  refine ⟨by rw [hcur₁]; decide, t₁, s', .single ⟨h2, ?_, fun he => absurd (hcur₁.symm.trans he) (by decide)⟩, ht₃⟩
  show (s'.kernel.table.slots 1).state ≠ .unused
  rw [ht₃]
  decide

/-- A `sys_wait` that finds no zombie leaves the kernel through another process. -/
theorem Runs.wait (fs : Initramfs) (hr : Running L s.kernel F c) (hruns : s.Runs L t)
    (hreq : t.request = some (.wait status)) (hstatus : StatusOk status) (hz : s.kernel.table.findZombie = none) (hsw : s.kernel.table.Switches) :
    ∃ s₁, s.CarefulStep L fs t s₁ ∧ s₁.kernel.table = s.kernel.table.yield := by
  obtain ⟨hcause, hcall⟩ := Trap.request_ecall hreq
  have htab : (s.inKernel L t).table = s.kernel.table := inKernel_table (by rw [hr.current]; rfl)
  rw [← htab] at hz hsw
  have hnone : (s.inKernel L t).findZombie = none := hz
  have hy : (s.inKernel L t).yield L = (((s.inKernel L t).yield L).1, true) :=
    Prod.ext rfl (yield_switched.trans (decide_eq_true hsw))
  have hsys : (s.inKernel L t).handleSyscall L fs s.input t.now (.wait status) =
      .ok (.switched, ((s.inKernel L t).yield L).1, s.input) := by
    simp only [Kernel.handleSyscall, sysWait, hnone]
    rw [hy]
    rfl
  refine ⟨_, ⟨⟨hruns, trap_switched hcause hcall hsys⟩, careful_of hreq ⟨hstatus, fun z he => ?_⟩⟩,
    yield_table.trans (by rw [htab])⟩
  cases hnone.symm.trans he

/-- A `sys_read` of more than one character does so too. -/
theorem Runs.read (fs : Initramfs) {b : UInt8} (hruns : s.Runs L t) (hreq : t.request = some (.read 0 buf len))
    (hbuf : buf ≠ 0) (hlen : len ≠ 0) (hle : buf + len ≤ kernelBase) (hin : s.input = b :: input) (hb : b ≠ newline)
    (hr : Running L s.kernel F c) (hstore : (s.inKernel L t).storeU8 L buf b = .ok k)
    (hsw : s.kernel.table.Switches) :
    ∃ s₁, s.CarefulStep L fs t s₁ ∧ s₁.kernel.table = s.kernel.table.yield := by
  obtain ⟨hcause, hcall⟩ := Trap.request_ecall hreq
  have htab : k.table = s.kernel.table :=
    (storeU8_table hstore).trans (inKernel_table (by rw [hr.current]; rfl))
  rw [← htab] at hsw
  obtain ⟨n, rfl⟩ := Nat.exists_eq_succ_of_ne_zero hlen
  have hy : k.yield L = ((k.yield L).1, true) := Prod.ext rfl (yield_switched.trans (decide_eq_true hsw))
  have hsys : (s.inKernel L t).handleSyscall L fs s.input t.now (.read 0 buf (n + 1)) =
      .ok (.switched, (k.yield L).1, input) := by
    simp only [Kernel.handleSyscall, sysRead, readRefused, hin, readLoop, Nat.add_zero, hstore, ok_bind]
    rw [if_neg (by simpa using hbuf), if_neg hb, hy]
  exact ⟨_, ⟨⟨hruns, trap_switched hcause hcall hsys⟩, careful_of hreq (.inr hle)⟩,
    yield_table.trans (by rw [htab])⟩

end Machine

end RiscvOs
