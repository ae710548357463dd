import RiscvOs.Theorems.Registers

/-!
# The arguments in the records

`argc` and `argv_ptr` of a record change by `sys_exec` only, and a new record has none. So a process without a
second argument has no `argv`.
-/

namespace RiscvOs

open ByteMem Outcome Kernel Lts

variable {L : Layout} {fs : Initramfs} {k k' : Kernel} {F : List Nat} {c i : Fin procsMax} {s s' s₀ : Machine}
  {t : Trap} {l : List Trap} {call : Call} {ret : SysRet} {ev : Table.Event} {input input' now : List UInt8}
  {p p' : Proc} {tb : Table} {f : Frame} {filename argv : Nat} {argc : Int}

/-- `argc` is an `int`, and `argv` is NULL without a second argument. -/
structure Proc.ArgsOk (p : Proc) : Prop where
  ge : -2 ^ 31 ≤ p.argc
  lt : p.argc < 2 ^ 31
  argv : p.argc ≤ 1 → p.argvPtr = 0

theorem Proc.argsOk_none (h : p.argc = 0) (h' : p.argvPtr = 0) : p.ArgsOk :=
  ⟨by rw [h]; decide, by rw [h]; decide, fun _ => h'⟩

theorem Proc.ArgsOk.congr (h : p.ArgsOk) (hc : p'.argc = p.argc) (ha : p'.argvPtr = p.argvPtr) : p'.ArgsOk :=
  ⟨hc ▸ h.ge, hc ▸ h.lt, fun hle => ha.trans (h.argv (hc ▸ hle))⟩

def Kernel.ArgsOk (k : Kernel) : Prop := ∀ i, k.Live i → (k.procs i).ArgsOk

/-- The third argument of SYS_EXEC is an `int`. -/
theorem callOf_exec_range (h : callOf f = some (.exec filename argv argc)) : -2 ^ 31 ≤ argc ∧ argc < 2 ^ 31 := by
  rw [callOf_exec h]
  exact ⟨BitVec.le_toInt _, BitVec.toInt_lt⟩

/-- Only `fork` puts a slot to use. -/
theorem Table.Event.born (hcur : (tb.slots tb.current).state ≠ .unused) (hu : (tb.slots i).state = .unused)
    (hl : ((ev.run tb).slots i).state ≠ .unused) : ev = .fork i := by
  have hi : i ≠ tb.current := fun he => hcur (he ▸ hu)
  have hset : ∀ (j : Fin procsMax) (q : Slot), (q.state = .unused ↔ (tb.slots j).state = .unused) →
      ((tb.set j q).slots i).state = .unused := fun j q hq => by
    by_cases hj : i = j
    · subst hj
      rw [slots_set_self]
      exact hq.mpr hu
    · rw [slots_set_of_ne hj]
      exact hu
  have hinbox : ∀ j msg, ((tb.setInbox j msg).slots i).state = .unused := fun j msg => hset j _ Iff.rfl
  have hyield : ∀ t : Table, (t.slots i).state = .unused → (t.yield.slots i).state = .unused := fun t ht =>
    ((t.yield_rescheduled i).state_iff (by simp) (by simp)).mpr ht
  cases ev with
  | stay => exact absurd hu hl
  | yield => exact absurd (hyield tb hu) hl
  | fork j =>
      by_cases hj : i = j
      · rw [hj]
      · rw [show (Event.run tb (.fork j)).slots i = tb.slots i from slots_set_of_ne hj] at hl
        exact absurd hu hl
  | exec => exact absurd (hyield _ (hset _ _ (iff_of_false (by simp) hcur))) hl
  | exit code => exact absurd (hset _ _ (iff_of_false (by simp) hcur)) hl
  | reap z =>
      by_cases hz : i = z
      · subst hz
        exact absurd (by rw [show (Event.run tb (.reap i)).slots i = _ from slots_set_self]) hl
      · rw [show (Event.run tb (.reap z)).slots i = tb.slots i from slots_set_of_ne hz] at hl
        exact absurd hu hl
  | send d bytes => exact absurd (hinbox d _) hl
  | recv => exact absurd (hinbox _ _) hl

/-- A call loads a program of the RAM disk, or it is no such `sys_exec`. -/
theorem Effect.program (h : Effect fs k call ret ev) :
    (∃ filename argv argc elf, call = .exec filename argv argc ∧ k.tarfsLookup filename fs = .ok (some elf)) ∨
      ∀ filename argv argc, call = .exec filename argv argc → k.tarfsLookup filename fs = .ok none := by
  cases h with
  | exec hf => exact .inl ⟨_, _, _, _, rfl, hf⟩
  | execNone hf =>
      refine .inr fun _ _ _ he => ?_
      cases he
      exact hf
  | quiet hq =>
      refine .inr fun _ _ _ he => ?_
      subst he
      exact hq.elim
  | _ => exact .inr fun _ _ _ he => by cases he

namespace Kernel.Running

variable (h : Running L k F c)
include h

/-- The new record of a child. -/
theorem fork_args (hs : k.sysFork L = .ok (ret, k')) (hslot : k.freeSlot = some i) : (k'.procs i).ArgsOk := by
  have hlc : k.Live k.cur := h.cur.symm ▸ h.live
  rcases sysFork_spec h.toInv hlc (h.full _ hlc) hs with ⟨hfull, -, -⟩ | ⟨j, tf, root, F', -, hf⟩
  · rw [hslot] at hfull
    cases hfull
  · obtain rfl : i = j := Option.some.inj (hslot.symm.trans hf.slot)
    rw [hf.procs_child]
    exact Proc.argsOk_none rfl rfl

/-- The record of the process that calls. -/
theorem self_args (hfs : ∀ f ∈ fs, f.2.Linked) (hcare : k.Careful L c call)
    (hargc : ∀ filename argv argc, call = .exec filename argv argc → -2 ^ 31 ≤ argc ∧ argc < 2 ^ 31)
    (hs : k.handleSyscall L fs input now call = .ok (ret, k', input')) (ha : (k.procs c).ArgsOk) :
    (k'.procs c).ArgsOk := by
  obtain ⟨ev, he, -⟩ := handleSyscall_effect hs
  rcases he.program with ⟨filename, argv, argc, elf, rfl, hlook⟩ | hexec
  · simp only [handleSyscall, bind_eq_ok, Prod.exists, Except.ok.injEq, Prod.mk.injEq] at hs
    obtain ⟨_, _, hs, rfl, rfl, _⟩ := hs
    obtain ⟨sp, argvPtr, hset⟩ := exists_execStack hlook hs
    obtain ⟨hentry, -, -, hptr⟩ := h.sysExec_entry hfs hset hs
    obtain ⟨hge, hlt⟩ := hargc _ _ _ rfl
    refine ⟨hentry.argc ▸ hge, hentry.argc ▸ hlt, fun hle => ?_⟩
    rw [hentry.argvPtr]
    exact hptr (hentry.argc ▸ hle)
  · have hf := h.handleSyscall_framed hcare hexec hs
    exact ha.congr hf.argc hf.argvPtr

theorem handleSyscall_args (hfs : ∀ f ∈ fs, f.2.Linked) (hcare : k.Careful L c call)
    (hargc : ∀ filename argv argc, call = .exec filename argv argc → -2 ^ 31 ≤ argc ∧ argc < 2 ^ 31)
    (hs : k.handleSyscall L fs input now call = .ok (ret, k', input')) (ha : k.ArgsOk) : k'.ArgsOk := by
  intro i hl'
  by_cases hi : i = c
  · subst hi
    exact h.self_args hfs hcare hargc hs (ha _ h.live)
  by_cases hl : k.Live i
  · have hkept := (h.handleSyscall_served hfs hcare hs).others i hi hl hl'
    exact (ha i hl).congr hkept.argc hkept.argvPtr
  · -- the slot was free, so it holds a new child
    obtain ⟨ev, he, ht⟩ := handleSyscall_effect hs
    have hcur : (k.table.slots k.table.current).state ≠ .unused := by
      rw [show k.table.current = c from h.cur]
      exact h.live
    have hborn : ev = .fork i := by
      refine Table.Event.born hcur (not_not.mp hl) ?_
      rw [← ht]
      exact hl'
    subst hborn
    cases he with
    | fork hslot =>
        simp only [handleSyscall, bind_eq_ok, Prod.exists, Except.ok.injEq, Prod.mk.injEq] at hs
        obtain ⟨_, _, hs, rfl, rfl, _⟩ := hs
        exact h.fork_args hs hslot

end Kernel.Running

/-! ## Boot -/

namespace Kernel

/-- No record has arguments. -/
def NoArgs (k : Kernel) : Prop := ∀ i, (k.procs i).argc = 0 ∧ (k.procs i).argvPtr = 0

theorem NoArgs.setProc (h : k.NoArgs) (hc : p.argc = 0) (ha : p.argvPtr = 0) : (k.setProc i p).NoArgs := fun j => by
  by_cases hj : j = i
  · subst hj
    rw [setProc_procs_self]
    exact ⟨hc, ha⟩
  · rw [setProc_procs_of_ne hj]
    exact h j

theorem NoArgs.setName {name : List UInt8} (h : k.NoArgs) : (k.setName i name).NoArgs :=
  h.setProc (h i).1 (h i).2

theorem NoArgs.makeIdle (h : k.NoArgs) : (k.makeIdle i).NoArgs :=
  NoArgs.setProc (k := { k with idleProc := i, currentProc := some i }) h (h i).1 (h i).2

theorem NoArgs.yield (h : k.NoArgs) : (k.yield L).1.NoArgs := fun j => by
  obtain ⟨st, hrec⟩ := yield_record L k j
  rw [hrec]
  exact h j

theorem NoArgs.createInitProcess {a n : Nat} (h : k.NoArgs) (hs : k.createInitProcess L a n = .ok (i, k')) :
    k'.NoArgs := by
  unfold Kernel.createInitProcess at hs
  split at hs
  · cases hs
  · simp only [bind_eq_ok, Prod.exists, Except.ok.injEq, Prod.mk.injEq] at hs
    obtain ⟨pt, s, _, rfl, rfl⟩ := hs
    refine NoArgs.setProc (fun j => h j) ?_ ?_ <;> split <;> first
      | exact (h _).1
      | exact (h _).2

theorem NoArgs.extractCreate {elf : Elf} (h : k.NoArgs)
    (hs : k.extractFlatBinaryFromElf L elf true = .ok (i, k')) : k'.NoArgs := by
  simp only [extractFlatBinaryFromElf, if_true, bind_eq_ok, Prod.exists] at hs
  obtain ⟨a, k₁, h1, h2⟩ := hs
  refine NoArgs.createInitProcess (k := k₁) ?_ h2
  unfold loadImage at h1
  obtain ⟨_, h1⟩ := ite_error_eq_ok.mp h1
  simp only [bind_eq_ok, Prod.exists, Except.ok.injEq, Prod.mk.injEq] at h1
  obtain ⟨_, _, _, _, _, _, _, _, _, _, _, -, rfl⟩ := h1
  exact h

end Kernel

theorem kernelMain_noArgs {m : Mem} (h : kernelMain L fs m = .ok k) : k.NoArgs := by
  unfold kernelMain at h
  obtain ⟨k₀, h0, h⟩ := bind_eq_ok.mp h
  have hn₀ : k₀.NoArgs := by
    simp only [Kernel.pagingInit, bind_eq_ok, Prod.exists, Except.ok.injEq] at h0
    obtain ⟨_, _, _, _, _, _, _, rfl⟩ := h0
    exact fun _ => ⟨rfl, rfl⟩
  split at h
  · cases h
  · simp only [bind_eq_ok, Prod.exists] at h
    obtain ⟨idle, k₁, h1, h⟩ := h
    split at h
    · cases h
    · simp only [bind_eq_ok, Prod.exists, Except.ok.injEq] at h
      obtain ⟨s, k₂, h2, rfl⟩ := h
      exact ((hn₀.extractCreate h1).makeIdle.extractCreate h2).setName.yield

namespace Machine

theorem Step.args (hfs : ∀ f ∈ fs, f.2.Linked) (hr : Running L s.kernel F c) (h : s.CarefulStep L fs t s')
    (ha : s.kernel.ArgsOk) : s'.kernel.ArgsOk := by
  obtain ⟨⟨hruns, htrap⟩, hcare⟩ := h
  have hk := hruns.inKernel hr
  have hka : (s.inKernel L t).ArgsOk := ha
  unfold trap at htrap
  cases hcause : t.cause with
  | timer =>
      simp only [hcause, Except.ok.injEq] at htrap
      have hs' : s'.kernel = ((s.inKernel L t).yield L).1 := by
        rw [← htrap]
        split <;> rfl
      rw [hs']
      intro i hl
      obtain ⟨st, hrec⟩ := yield_record L (s.inKernel L t) i
      have hl' : (s.inKernel L t).Live i := (yield_same L (s.inKernel L t) i).live.mp hl
      exact (hka i hl').congr (by rw [hrec]) (by rw [hrec])
  | ecall =>
      simp only [hcause] at htrap
      split at htrap
      · cases htrap
      rename_i call hcall
      simp only [bind_eq_ok, Prod.exists] at htrap
      obtain ⟨ret, k', input, hsys, htrap⟩ := htrap
      have hreq : t.request = some call := by rw [Trap.request, hcause, hcall]
      have hcc := hcare call hreq
      rw [hr.cur] at hcc
      have hargs : k'.ArgsOk := by
        refine hk.handleSyscall_args hfs hcc (fun filename argv argc he => ?_) hsys hka
        rw [he] at hcall
        exact callOf_exec_range hcall
      cases ret with
      | switched =>
          simp only [Except.ok.injEq] at htrap
          rw [← htrap]
          exact hargs
      | value a0 =>
          simp only [Except.ok.injEq] at htrap
          rw [← htrap]
          exact hargs

theorem Start.args (h : s.Start L fs) : s.kernel.ArgsOk := by
  obtain ⟨m, hm⟩ := h.kernel
  exact fun i _ => Proc.argsOk_none (kernelMain_noArgs hm i).1 (kernelMain_noArgs hm i).2

/-- In every state of a careful run. -/
theorem carefulRun_args (hfs : ∀ f ∈ fs, f.2.Linked) (h₀ : s₀.Start L fs) (h : Run (CarefulStep L fs) s₀ l s) :
    s.kernel.ArgsOk := by
  have hinv := h.invariant (I := fun s => (∃ F c, Running L s.kernel F c) ∧ s.kernel.ArgsOk)
    (fun _ _ _ ⟨hr, ha⟩ hs => ⟨hs.running hfs hr, by
      obtain ⟨F, c, hr⟩ := hr
      exact Step.args hfs hr hs ha⟩) ⟨h₀.running hfs, h₀.args⟩
  exact hinv.2

end Machine

end RiscvOs
