import RiscvOs.Message

/-!
# Traps

`trap.c`, `handle_syscall` and `user_return` of `user.c`: how a process enters the kernel and how it goes
on. Between two traps the process that is current runs code of its own.
-/

namespace RiscvOs

open ByteMem

/-- A trap frame: the registers of `regs_t` in their order, `sp` and `epc`. -/
abbrev Frame := Fin 32 → BitVec 64

instance Frame.neZero : NeZero 32 := ⟨by decide⟩

/-- The frame in memory, its words in little-endian order. -/
def storeFrame (m : Mem) (a : Nat) (f : Frame) : Mem :=
  write m a frameSize fun k => byteOf (f (Fin.ofNat 32 (k / 8))).toNat (k % 8)

def loadFrame (m : Mem) (a : Nat) : Frame := fun j => BitVec.ofNat 64 (tfWord m a j)

namespace Kernel

/-- Process `i` runs and traps with the registers `f`: `trap_vector` stores them at the top of the kernel
stack, and `trap_handler` copies them to `current_proc->tf`. -/
def enter (L : Layout) (k : Kernel) (i : Fin procsMax) (f : Frame) : Kernel :=
  let m := storeFrame k.phys.mem (L.tfStackFrame i) f
  let m := memcpy m (k.procs i).tf (L.tfStackFrame i) frameSize
  { k with
    phys := { k.phys with mem := m }, currentProc := some i, satp := (k.procs i).pageTable
    sscratch := L.tfTop i }

end Kernel

/-! ## System calls -/

/-- A system call with its arguments. -/
inductive Call
  | read (fd buf len : Nat)
  | write (fd buf len : Nat)
  | yield
  | fork
  | exec (filename argv : Nat) (argc : Int)
  | exit (code : Nat)
  | wait (status : Nat)
  | clear
  | sysinfo (arg0 : Nat)
  | time (arg0 : Nat)
  | putchar (ch : Nat)
  | sbrk (increment : Int)
  | ipcSend (destPid : Int) (buf size : Nat)
  | ipcRecv (buf maxSize senderPid : Nat)
  | ps
  | ls
  | tarfsExists (filename : Nat)
  | log (msg : Nat)
  deriving Repr, DecidableEq

/-- The call that the registers stand for: its number is in `a7`. -/
def callOf (f : Frame) : Option Call :=
  let a0 := f 10
  let a1 := (f 11).toNat
  let a2 := (f 12).toNat
  match (f 17).toNat with
  | 63 => some (.read a0.toNat a1 a2)
  | 64 => some (.write a0.toNat a1 a2)
  | 93 => some (.exit (a0.toNat % 2 ^ 32))
  | 124 => some .yield
  | 200 => some (.sysinfo a0.toNat)
  | 201 => some (.time a0.toNat)
  | 220 => some .fork
  | 221 => some (.exec a0.toNat a1 ((f 12).setWidth 32).toInt)
  | 260 => some (.wait a0.toNat)
  | 400 => some (.putchar a0.toNat)
  | 401 => some (.sbrk a0.toInt)
  | 402 => some (.ipcSend (a0.setWidth 32).toInt a1 a2)
  | 403 => some (.ipcRecv a0.toNat a1 a2)
  | 404 => some .ps
  | 405 => some .ls
  | 406 => some .clear
  | 407 => some (.tarfsExists a0.toNat)
  | 501 => some (.log a0.toNat)
  | _ => none

/-- `handle_syscall`. `input` is what the console has yet to give, and `now` what the clock shows. What the
calls put out is left out. -/
def Kernel.handleSyscall (L : Layout) (fs : Initramfs) (k : Kernel) (input now : List UInt8) :
    Call → Except Halt (SysRet × Kernel × List UInt8)
  | .read fd buf len => k.sysRead L fd buf len input
  | .write fd buf len => do
    let (ret, _) ← k.sysWrite fd buf len
    .ok (ret, k, input)
  | .yield =>
    let (k, switched) := k.yield L
    .ok (if switched then .switched else .value 0, k, input)
  | .fork => do
    let (ret, k) ← k.sysFork L
    .ok (ret, k, input)
  | .exec filename argv argc => do
    let (ret, k) ← k.sysExec L fs filename argv argc
    .ok (ret, k, input)
  | .exit code => .ok (.value 0, k.sysExit code, input)
  | .wait status => do
    let (ret, k) ← k.sysWait L status
    .ok (ret, k, input)
  | .sysinfo arg0 => do
    let (ret, k) ← k.sysSysinfo L arg0
    .ok (ret, k, input)
  | .time arg0 => do
    let (ret, k) ← k.sysTime L arg0 now
    .ok (ret, k, input)
  | .sbrk increment => do
    let (ret, k) ← k.sysSbrk L increment
    .ok (ret, k, input)
  | .ipcSend destPid buf size => do
    let (ret, k) ← k.sysIpcSend destPid buf size
    .ok (ret, k, input)
  | .ipcRecv buf maxSize senderPid => do
    let (ret, k) ← k.sysIpcRecv L buf maxSize senderPid
    .ok (ret, k, input)
  | .tarfsExists filename => do
    let ret ← k.sysTarfsExists fs filename
    .ok (ret, k, input)
  | .log msg => do
    let (ret, _) ← k.sysLog msg
    .ok (ret, k, input)
  | .putchar _ | .ps | .ls | .clear => .ok (.value 0, k, input)

/-! ## `sstatus` -/

def sstatusSie : BitVec 64 := 0x2
def sstatusSpie : BitVec 64 := 0x20
def sstatusSpp : BitVec 64 := 0x100
def sstatusSum : BitVec 64 := 0x40000

/-- The functions of the kernel that write `sstatus`. -/
inductive CsrOp
  | enableSum
  | disableSum
  | enableInterrupts
  | disableInterrupts
  deriving Repr, DecidableEq

def CsrOp.run (s : BitVec 64) : CsrOp → BitVec 64
  | .enableSum => s ||| sstatusSum
  | .disableSum => s &&& ~~~sstatusSum
  | .enableInterrupts => s ||| sstatusSie
  | .disableInterrupts => s &&& ~~~sstatusSie

/-- What a trap from user mode does to `sstatus`. -/
def sstatusTrap (s : BitVec 64) : BitVec 64 :=
  let s' := if s &&& sstatusSie = 0 then s &&& ~~~sstatusSpie else s ||| sstatusSpie
  s' &&& ~~~sstatusSie &&& ~~~sstatusSpp

/-- `sret` to user mode. -/
def sstatusSret (s : BitVec 64) : BitVec 64 :=
  let s' := if s &&& sstatusSpie = 0 then s &&& ~~~sstatusSie else s ||| sstatusSie
  (s' ||| sstatusSpie) &&& ~~~sstatusSpp

namespace Kernel

/-- The writes to `sstatus` of `sys_read`: where the loop leaves through `yield`, the last one is left out. -/
def readCsr (L : Layout) (k : Kernel) (fd buf len : Nat) (input : List UInt8) : List CsrOp :=
  if readRefused fd buf len then [.enableSum]
  else
    match k.readLoop L buf 0 len input with
    | .ok (.value _, _) => [.enableSum, .disableSum]
    | _ => [.enableSum]

/-- `setup_user_arguments` opens the memory of the user for each string and for `argv`. -/
def argumentsCsr (argc : Int) : List CsrOp :=
  if argc > 1 then (List.replicate (argc.toNat + 1) [CsrOp.enableSum, CsrOp.disableSum]).flatten else []

/-- Those of SYS_EXEC: of `handle_syscall`, and of `sys_exec` in between. -/
def execCsr (L : Layout) (fs : Initramfs) (k : Kernel) (filename argv : Nat) (argc : Int) : List CsrOp :=
  match k.tarfsLookup filename fs with
  | .ok none => [.enableSum, .enableSum, .disableSum]
  | .error _ => [.enableSum, .enableSum]
  | .ok (some _) =>
    [.enableSum, .enableSum, .disableSum] ++ argumentsCsr argc ++
      match k.sysExec L fs filename argv argc with
      | .ok (.value _, _) => [.disableSum]
      | _ => []

/-- Those of `sys_wait`: `free_all_tracked_for_pid` ends with `enable_interrupts`. -/
def waitCsr (k : Kernel) (status : Nat) : List CsrOp :=
  match k.findZombie with
  | none => []
  | some _ =>
    (if status = 0 then [] else [.enableSum, .disableSum]) ++ [.disableInterrupts, .enableInterrupts]

/-- Those of `sys_ipc_send`: only a message that is accepted is read. -/
def ipcSendCsr (k : Kernel) (destPid : Int) (size : Nat) : List CsrOp :=
  if destPid < 0 ∨ procsMax ≤ destPid then []
  else
    match getProcByPid destPid with
    | none => []
    | some dest =>
      if size > maxMsgSize ∨ (k.procs dest).inbox.pending then [] else [.enableSum, .disableSum]

/-- The functions that a system call calls to write `sstatus`, in their order. -/
def csrOps (L : Layout) (fs : Initramfs) (k : Kernel) (input : List UInt8) : Call → List CsrOp
  | .read fd buf len => k.readCsr L fd buf len input
  | .write fd _ _ => if fd ≠ 1 then [] else [.enableSum, .disableSum]
  | .exec filename argv argc => k.execCsr L fs filename argv argc
  | .wait status => k.waitCsr status
  | .ipcSend destPid _ size => k.ipcSendCsr destPid size
  | .ipcRecv _ _ _ => if !(k.procs k.cur).inbox.pending then [] else [.enableSum, .disableSum]
  | .tarfsExists _ => [.enableSum, .disableSum]
  | .log msg => if msg = 0 then [] else [.enableSum, .disableSum]
  | .yield | .fork | .exit _ | .sysinfo _ | .time _ | .sbrk _ | .putchar _ | .ps | .ls | .clear => []

end Kernel

/-! ## Back to the user -/

def tfT0 : Fin 32 := 3
def tfT1 : Fin 32 := 4
def tfT2 : Fin 32 := 5
def tfT3 : Fin 32 := 6
def tfA1 : Fin 32 := 11
def tfPc : Fin 32 := 31

/-- The place of `argv_ptr` inside `struct process`. -/
def argvPtrOffset : Nat := 8632

/-- The registers after the end of `trap_vector`, with the program counter in the place of `epc`. -/
def epilogue (L : Layout) (m : Mem) (i : Fin procsMax) (sepc : BitVec 64) : Frame :=
  Function.update (loadFrame m (L.tfStackFrame i)) tfPc sepc

namespace Kernel

/-- `sstatus` as `user_return` writes it. -/
def userReturnSstatus (s : BitVec 64) : BitVec 64 := (s ||| sstatusSpie) &&& ~~~sstatusSpp

/-- The registers after `user_return`, with the program counter in the place of `epc`. -/
def userReturn (L : Layout) (k : Kernel) (sstatus : BitVec 64) : Frame :=
  let p := k.procs k.cur
  let f := loadFrame k.phys.mem p.tf
  fun j =>
    if j = tfT0 then f tfPc
    else if j = tfT1 then userReturnSstatus sstatus
    else if j = tfT2 then BitVec.ofNat 64 (L.procAddr k.cur)
    else if j = tfT3 then BitVec.ofNat 64 (L.procAddr k.cur + argvPtrOffset)
    -- the four bytes of `argc` and the padding behind them
    else if j = Fin.ofNat 32 tfA0 then BitVec.ofNat 64 (p.argc % 2 ^ 32).toNat
    else if j = tfA1 then BitVec.ofNat 64 p.argvPtr
    else f j

end Kernel

/-! ## The machine -/

/-- The kernel while a process runs: what the console has yet to give, `sstatus`, and the registers with
which the process started or went on. -/
structure Machine where
  kernel : Kernel
  input : List UInt8
  sstatus : BitVec 64
  user : Frame

inductive Cause
  | timer
  | ecall
  deriving Repr, DecidableEq

/-- A trap: memory and registers when it is taken, its cause, and what the clock shows. -/
structure Trap where
  mem : Mem
  frame : Frame
  cause : Cause
  now : List UInt8

namespace Machine

/-- Memory as the trap finds it. -/
def atTrap (s : Machine) (t : Trap) : Kernel :=
  { s.kernel with phys := { s.kernel.phys with mem := t.mem } }

/-- The state in which `trap_handler` looks at the cause. -/
def inKernel (L : Layout) (s : Machine) (t : Trap) : Kernel :=
  (s.atTrap t).enter L s.kernel.cur t.frame

/-- The process that `yield` has chosen goes on, through `user_return`. -/
def resume (L : Layout) (k : Kernel) (input : List UInt8) (sstatus : BitVec 64) : Machine where
  kernel := k
  input := input
  sstatus := sstatusSret (Kernel.userReturnSstatus sstatus)
  user := k.userReturn L sstatus

/-- The process that trapped goes on, through the end of `trap_vector`. -/
def goOn (L : Layout) (k : Kernel) (i : Fin procsMax) (input : List UInt8) (sstatus sepc : BitVec 64) :
    Machine where
  kernel := k
  input := input
  sstatus := sstatusSret sstatus
  user := epilogue L k.phys.mem i sepc

/-- The result of a system call in the trap frame. -/
def setResult (L : Layout) (k : Kernel) (i : Fin procsMax) (a0 : Nat) : Kernel :=
  { k with phys := { k.phys with mem := setTfWord k.phys.mem (L.tfStackFrame i) tfA0 a0 } }

/-- `trap_handler`, and the way back to the user. -/
def trap (L : Layout) (fs : Initramfs) (s : Machine) (t : Trap) : Except Halt Machine :=
  let i := s.kernel.cur
  let k := s.inKernel L t
  let sstatus := sstatusTrap s.sstatus
  match t.cause with
  | .timer =>
    let (k, switched) := k.yield L
    .ok (if switched then resume L k s.input sstatus else goOn L k i s.input sstatus (t.frame tfPc))
  | .ecall =>
    match callOf t.frame with
    | none => .error (.panic "[syscall] unknown syscall %d\n" [(t.frame 17).toNat])
    | some call => do
      let (ret, k', input) ← k.handleSyscall L fs s.input t.now call
      let sstatus := (k.csrOps L fs s.input call).foldl CsrOp.run sstatus
      match ret with
      | .switched => .ok (resume L k' input sstatus)
      | .value a0 => .ok (goOn L (setResult L k' i a0) i input sstatus (t.frame tfPc + 4))

/-- The physical address behind `va` for an access of the process itself that needs the right `mask`. -/
def userAccess (k : Kernel) (va mask : Nat) : Option Nat :=
  if (Phys.translate k.phys.mem k.satp va pteU).isSome then Phys.translate k.phys.mem k.satp va mask
  else none

/-- The instruction at `pc` is an `ecall`. -/
def atEcall (k : Kernel) (pc : BitVec 64) : Bool :=
  (List.range 4).all fun j =>
    match userAccess k ((pc.toNat + j) % 2 ^ 64) pteX with
    | some pa => k.phys.mem pa == byteOf 0x73 j
    | none => false

/-- The process runs code of its own up to the trap. It stores to its pages only; these lie in free RAM.
When it stands at an `ecall`, that is the next thing it does. -/
structure Runs (L : Layout) (s : Machine) (t : Trap) : Prop where
  stores : ∀ a, t.mem a ≠ s.kernel.phys.mem a →
    L.freeRam ≤ a ∧ ∃ va, userAccess s.kernel va pteW = some a
  ecall : atEcall s.kernel (s.user tfPc) → t.mem = s.kernel.phys.mem ∧ t.frame = s.user
  -- an `ecall` is what makes a system call
  call : t.cause = .ecall → atEcall (s.atTrap t) (t.frame tfPc)

/-- The machine when the shell starts: `user_entry` has written `sstatus` and `sepc`. -/
structure Start (L : Layout) (fs : Initramfs) (s : Machine) : Prop where
  kernel : ∃ m, kernelMain L fs m = .ok s.kernel
  sstatus : s.sstatus = sstatusSret sstatusSpie
  entry : s.user tfPc = BitVec.ofNat 64 userBase

/-- One trap, with the code that the process runs before it. -/
def Step (L : Layout) (fs : Initramfs) (s : Machine) (t : Trap) (s' : Machine) : Prop :=
  s.Runs L t ∧ s.trap L fs t = .ok s'

end Machine

end RiscvOs
