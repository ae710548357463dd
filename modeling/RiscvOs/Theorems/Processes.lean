import RiscvOs.Lemmas.Maps

/-!
# The process table over whole runs

From boot on, whatever the processes do: the counter of processes is exact, pids tell processes apart, and
only the current process is RUNNING. A process that has exited stays a zombie until its parent has waited
for it, unless it loads another program first.
-/

namespace RiscvOs

open Lts Outcome

variable {L : Layout} {fs : Initramfs} {s s' s₀ : Machine} {t : Trap} {l : List Trap} {k : Kernel}
  {z : Fin procsMax}

namespace Machine

theorem Start.table (h : s.Start L fs) : s.kernel.table = Table.boot :=
  have ⟨_, hm⟩ := h.kernel
  kernelMain_table hm

theorem Start.ok (h : s.Start L fs) : s.kernel.table.Ok := by
  rw [h.table]
  exact Table.boot_ok

theorem Step.ok (hs : s.kernel.table.Ok) (h : s.Step L fs t s') : s'.kernel.table.Ok := by
  obtain ⟨ev, he, ht⟩ := trap_effect hs.started h.2
  rw [ht]
  exact hs.run (he.enabled hs.started)

/-- The invariant of the process table holds in every state that is reached. -/
theorem run_ok (h₀ : s₀.Start L fs) (h : Run (Step L fs) s₀ l s) : s.kernel.table.Ok :=
  h.invariant (I := fun s => s.kernel.table.Ok) (fun _ _ _ hi hs => hs.ok hi) h₀.ok

end Machine

/-! ## The counter, the pids and the current process -/

structure Kernel.TableExact (k : Kernel) : Prop where
  count : k.processCount = (Finset.univ.filter fun i => (k.procs i).state ≠ .unused).card
  pid : ∀ i, i ≠ 0 → (k.procs i).state ≠ .unused → (k.procs i).pid = i + 1
  distinct : ∀ i j, (k.procs i).state ≠ .unused → (k.procs j).state ≠ .unused →
    (k.procs i).pid = (k.procs j).pid → i = j
  current : ∃ c, k.currentProc = some c ∧ (k.procs c).state ≠ .unused
  running : ∀ i, (k.procs i).state = .running → k.currentProc = some i

/-- The process that `yield` chooses, when the current one does not run any more. -/
def Kernel.chosen (k : Kernel) : Fin procsMax := (k.changeState k.cur .running .runnable).pickNext

/-- What `yield` chooses is idle, or RUNNABLE when it is chosen. -/
def Kernel.ChoosesRunnable (k : Kernel) : Prop :=
  k.chosen = k.idleProc ∨ ((k.changeState k.cur .running .runnable).procs k.chosen).state = .runnable

theorem Table.Ok.exact (h : k.table.Ok) : k.TableExact := by
  obtain ⟨c, hc⟩ := Option.isSome_iff_exists.mp h.started
  have hcur : k.table.current = c := by rw [Table.current, show k.table.currentProc = some c from hc]; rfl
  refine ⟨h.count, fun i hi hu => ?_, fun i j hi hj hp => h.pid_inj hi hj hp, ⟨c, hc, ?_⟩, fun i hi => ?_⟩
  · refine (h.pid i).trans (if_neg ?_)
    rintro (hu' | h0)
    · exact hu hu'
    · exact hi h0
  · have := h.current
    rw [hcur] at this
    exact this
  · rw [h.running i hi, hcur]
    exact hc

theorem choosesRunnable (k : Kernel) : k.ChoosesRunnable := by
  have hp : (k.changeState k.cur .running .runnable).table = k.table.preempted := Kernel.table_changeState
  rcases Table.next_runnable (k.changeState k.cur .running .runnable).table with h | h
  · refine .inl (h.trans ?_)
    rw [hp]
    exact Table.idle_changeState
  · exact .inr h

namespace Machine

/-- The timer fires before the process does anything. -/
def tick (s : Machine) : Trap where
  mem := s.kernel.phys.mem
  frame := s.user
  cause := .timer
  now := []

theorem tick_step (L : Layout) (fs : Initramfs) (s : Machine) : ∃ s', s.Step L fs s.tick s' :=
  ⟨_, ⟨fun _ h => absurd rfl h, fun _ => ⟨rfl, rfl⟩, fun h => by cases h⟩, rfl⟩

/-- The machine when the shell starts, with the programs of a small RAM disk. -/
theorem exists_start (L : Layout) : ∃ s : Machine, s.Start L tinyFs := by
  obtain ⟨k, F, hk, _⟩ := exists_booted L fun _ => 0
  exact ⟨⟨k, [], sstatusSret sstatusSpie, fun _ => BitVec.ofNat 64 userBase⟩, ⟨_, hk⟩, rfl, rfl⟩

end Machine

/-- The trap is a `sys_exec` of a program that exists, made by the process in slot `z` after its exit. -/
def Machine.ZombieExec (L : Layout) (fs : Initramfs) (z : Fin procsMax) (s : Machine) (t : Trap) : Prop :=
  s.kernel.cur = z ∧ (s.kernel.procs z).state = .zombie ∧ t.cause = .ecall ∧
    ∃ filename argv argc elf, callOf t.frame = some (.exec filename argv argc) ∧
      (s.inKernel L t).tarfsLookup filename fs = .ok (some elf)

/-- The trap is a `sys_wait` of the parent that frees slot `z`. -/
def Machine.Reaps (z : Fin procsMax) (s : Machine) (t : Trap) (s' : Machine) : Prop :=
  t.cause = .ecall ∧ (∃ status, callOf t.frame = some (.wait status)) ∧
    (s.kernel.procs z).parent = some s.kernel.cur ∧ (s'.kernel.procs z).state = .unused

namespace Machine

theorem Step.started (hc : s.kernel.currentProc.isSome) (h : s.Step L fs t s') :
    s'.kernel.currentProc.isSome := by
  obtain ⟨ev, _, ht⟩ := trap_effect hc h.2
  have hs := ev.started (t := s.kernel.table) hc
  rw [← ht] at hs
  exact hs

/-- One trap, while slot `z` holds a zombie. -/
theorem Step.zombie (hc : s.kernel.currentProc.isSome) (hz : (s.kernel.procs z).state = .zombie)
    (hn : ¬s.ZombieExec L fs z t) (h : s.Step L fs t s') :
    (s'.kernel.procs z).state = .zombie ∨ s.Reaps z t s' := by
  obtain ⟨ev, he, ht⟩ := trap_effect hc h.2
  have hexec : ev = .exec → s.kernel.table.current ≠ z := by
    rintro rfl hcur
    cases he with
    | ecall hcause hcall he =>
        cases he with
        | exec hl => exact hn ⟨hcur, hz, hcause, _, _, _, _, hcall, hl⟩
  rcases Table.Event.zombie (he.enabled hc) hz hexec with hk | rfl
  · rw [← ht] at hk
    exact .inl hk
  · cases he with
    | ecall hcause hcall he =>
        cases he with
        | wait hf =>
            rw [inKernel_table hc] at hf
            have hp := List.find?_some hf
            simp only [Bool.and_eq_true, beq_iff_eq] at hp
            refine .inr ⟨hcause, ⟨_, hcall⟩, hp.2, ?_⟩
            have hu : (s'.kernel.table.slots z).state = .unused := by
              rw [ht]
              exact congrArg Slot.state Table.slots_set_self
            exact hu

/-- When a zombie's `sys_exec` succeeds it is no zombie any more. -/
theorem Step.zombieExec (hc : s.kernel.currentProc.isSome) (hx : s.ZombieExec L fs z t)
    (h : s.Step L fs t s') :
    (s'.kernel.procs z).state = .runnable ∨ (s'.kernel.procs z).state = .running := by
  obtain ⟨rfl, -, hcause, filename, argv, argc, elf, hcall, hl⟩ := hx
  obtain ⟨ev, he, ht⟩ := trap_effect hc h.2
  have hev : ev = .exec := by
    cases he with
    | timer htimer =>
        rw [hcause] at htimer
        cases htimer
    | ecall _ hcall' he =>
        rw [hcall] at hcall'
        obtain rfl := Option.some.inj hcall'
        cases he with
        | quiet hq => exact hq.elim
        | execNone hl' =>
            rw [hl] at hl'
            cases hl'
        | exec _ => rfl
  subst hev
  have hw := Table.exec_wakes (t := s.kernel.table)
  rw [show Table.exec s.kernel.table = s'.kernel.table from ht.symm] at hw
  exact hw

end Machine

/-- The states of slot `z` in a run that starts when it is a zombie: it is one in every state of the run, or
in every state up to the `sys_wait` of the parent that frees it. -/
def Machine.ZombieUntilFreed (L : Layout) (fs : Initramfs) (z : Fin procsMax) (s : Machine) (l : List Trap)
    (s' : Machine) : Prop :=
  Run (fun s t s' => s.Step L fs t s' ∧ (s'.kernel.procs z).state = .zombie) s l s' ∨
    ∃ l₁ t l₂ s₁ s₂, l = l₁ ++ t :: l₂ ∧
      Run (fun s t s' => s.Step L fs t s' ∧ (s'.kernel.procs z).state = .zombie) s l₁ s₁ ∧
      s₁.Step L fs t s₂ ∧ s₁.Reaps z t s₂ ∧ Run (Machine.Step L fs) s₂ l₂ s'

namespace Machine

/-- The shell has called `sys_exit`, and goes on. -/
structure Exited (L : Layout) (s₀ s : Machine) (F : List Nat) : Prop where
  start : s₀.Start L tinyFs
  run : ∃ l, Run (Machine.Step L tinyFs) s₀ l s
  free : Free L s F 1
  zombie : (s.kernel.procs 1).state = .zombie
  room : 14799 ≤ s.kernel.phys.room L
  heap : (s.kernel.procs 1).heapEnd = 0x3001000

theorem exists_exited (L : Layout) : ∃ s₀ s F, Exited L s₀ s F := by
  obtain ⟨s₀, F, hstart, -, hfree, hb, hroom⟩ := exists_shell L []
  obtain ⟨t, ht, -⟩ := hfree.call 93 0 0 0 [] []
  have hcur : s₀.kernel.cur = 1 := hfree.running.cur
  have hsys : (s₀.inKernel L t).handleSyscall L tinyFs s₀.input t.now (.exit 0) =
      .ok (.value 0, (s₀.inKernel L t).sysExit 0, s₀.input) := rfl
  have htrap := trap_value ht.cause (by rw [ht.frame]; rfl) hsys
  rw [hcur] at htrap
  have hexit := ht.running.sysExit 0
  have hcode : HasCode ((s₀.inKernel L t).sysExit 0) 1 (program []) :=
    ht.code.relabel rfl (Kernel.sysExit_same (ht.running.cur.symm ▸ ht.running.live) 1).pageTable
  have hproc : ((s₀.inKernel L t).sysExit 0).procs 1 =
      { s₀.kernel.procs 1 with state := .zombie, exitCode := 0 } := by
    unfold Kernel.sysExit
    rw [ht.running.cur, Kernel.setProc_procs_self]
    rfl
  exact ⟨s₀, _, F, hstart, ⟨[t], .single ⟨ht.runs, htrap⟩⟩, ht.goOn hexit hcode, congrArg Proc.state hproc, hroom,
    (congrArg Proc.heapEnd hproc).trans (hb.heap 1 hb.live_shell)⟩

/-- A process with the heap of a first process can load the shell's program. -/
theorem Free.exec {F : List Nat} {c : Fin procsMax} (h : Free L s F c) (hheap : (s.kernel.procs c).heapEnd = 0x3001000)
    (hroom : 537 ≤ s.kernel.phys.room L) (data : List UInt8) (argv : Nat) {argc : Nat} (hargc : argc ≤ 1)
    (hf : callOf (callFrame 221 dataVa argv argc) = some (.exec dataVa argv argc)) :
    ∃ t s', s.Step L tinyFs t s' ∧ t.cause = .ecall ∧ t.frame = callFrame 221 dataVa argv argc ∧
      Kernel.Running L (s.inKernel L t) F c ∧ HasCode (s.inKernel L t) c (program (shellName ++ 0 :: data)) ∧
        (s.inKernel L t).tarfsLookup dataVa tinyFs = .ok (some tinyElf) ∧
          ∃ r, (s.inKernel L t).sysExec L tinyFs dataVa argv argc = .ok r := by
  obtain ⟨t, ht, -⟩ := h.call 221 dataVa argv argc (shellName ++ 0 :: data) []
  have hcall : callOf t.frame = some (.exec dataVa argv argc) := by
    rw [ht.frame]
    exact hf
  have hprocs : (s.inKernel L t).procs = s.kernel.procs := rfl
  have hfile : (s.inKernel L t).tarfsLookup dataVa tinyFs = .ok (some tinyElf) :=
    ht.code.tarfsLookup_shell ht.running rfl
  obtain ⟨buf, hbuf⟩ := ht.code.loadStr (x := 64) (n := procNameMaxLen - 1) ht.running (by decide)
  have hrounds : ∃ n, (s.inKernel L t).freeRounds c = .ok n := by
    unfold Kernel.freeRounds
    rw [hprocs, hheap, ht.running.globals.stackTop]
    exact ⟨_, if_neg (by decide)⟩
  obtain ⟨n, hn⟩ := hrounds
  obtain ⟨⟨ret, k'⟩, hexec⟩ : ∃ r, (s.inKernel L t).execElf L tinyElf buf argv argc = .ok r :=
    Kernel.execElf_total ht.running.toValid ht.running.current ht.running.live tiny_tinyElf hn (by omega) hroom
  have hsys : (s.inKernel L t).sysExec L tinyFs dataVa argv argc = .ok (ret, k') := by
    have hb : (s.inKernel L t).loadStr dataVa (procNameMaxLen - 1) = .ok buf := hbuf
    simp only [Kernel.sysExec, hb, ok_bind, hfile]
    exact hexec
  have hhandle : (s.inKernel L t).handleSyscall L tinyFs s.input t.now (.exec dataVa argv argc) =
      .ok (ret, k', s.input) := by
    simp only [Kernel.handleSyscall, hsys, ok_bind]
  have hstep : ∃ s', s.Step L tinyFs t s' := by
    cases ret with
    | value a0 => exact ⟨_, ht.runs, trap_value ht.cause hcall hhandle⟩
    | switched => exact ⟨_, ht.runs, trap_switched ht.cause hcall hhandle⟩
  obtain ⟨s', hs'⟩ := hstep
  exact ⟨t, s', hs', ht.cause, ht.frame, ht.running, ht.code, hfile, _, hsys⟩

/-- A zombie calls `sys_exec` for the shell's program. -/
theorem Exited.exec {F : List Nat} (h : Exited L s₀ s F) :
    ∃ t s', s.Step L tinyFs t s' ∧ s.ZombieExec L tinyFs 1 t := by
  obtain ⟨t, s', hs', hcause, hframe, -, -, hfile, -⟩ :=
    h.free.exec h.heap (Nat.le_trans (by decide) h.room) [] 0 (Nat.zero_le 1) rfl
  exact ⟨t, s', hs', h.free.running.cur, h.zombie, hcause, _, _, _, _, by rw [hframe]; rfl, hfile⟩

end Machine

end RiscvOs
