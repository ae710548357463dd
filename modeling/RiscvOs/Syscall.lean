import RiscvOs.Process

/-!
# System calls on processes

`sys_sbrk`, `sys_fork`, `sys_exec`, `sys_exit` and `sys_wait` of `syscall.c`, `setup_user_arguments` of
`arguments.c`, and the start of the system in `kernel.c`. A pointer that a process passes is an address in
the active address space.
-/

namespace RiscvOs

open ByteMem

/-- `MAX_ARGS`. -/
def maxArgs : Nat := 8

/-- `MAX_ARG_LENGTH`. -/
def maxArgLength : Nat := 128

/-- `PROC_NAME_MAX_LEN`. -/
def procNameMaxLen : Nat := 64

/-- How a system call ends. -/
inductive SysRet
  /-- it returns, and `a0` gets the value -/
  | value (a0 : Nat)
  /-- it leaves the kernel through another process -/
  | switched
  deriving Repr, DecidableEq

/-- A negative result in a 64-bit register. -/
def neg64 (n : Nat) : Nat := 2 ^ 64 - n

namespace Kernel

/-! ## Memory of the caller -/

def loadU8 (k : Kernel) (va : Nat) : Except Halt UInt8 :=
  match Phys.translate k.phys.mem k.satp (va % 2 ^ 64) pteR with
  | some pa => .ok (k.phys.mem pa)
  | none => .error (.fault va)

/-- The code and the variables of the kernel lie below free RAM, `procs` among them: what the kernel does
after a store there has no meaning. -/
def storeU8 (L : Layout) (k : Kernel) (va : Nat) (b : UInt8) : Except Halt Kernel :=
  match Phys.translate k.phys.mem k.satp (va % 2 ^ 64) pteW with
  | some pa =>
    if pa < L.freeRam then .error .undefined
    else .ok { k with phys := { k.phys with mem := Function.update k.phys.mem pa b } }
  | none => .error (.fault va)

/-- A store of several bytes. -/
def storeBytes (L : Layout) (k : Kernel) (va : Nat) : List UInt8 → Except Halt Kernel
  | [] => .ok k
  | b :: bs => do
    let k ← k.storeU8 L va b
    k.storeBytes L (va + 1) bs

/-- The characters of a string up to its end, `n` at most. -/
def loadStr (k : Kernel) (va : Nat) : Nat → Except Halt (List UInt8)
  | 0 => .ok []
  | n + 1 => do
    let b ← k.loadU8 va
    if b = 0 then .ok []
    else do
      let s ← k.loadStr (va + 1) n
      .ok (b :: s)

/-- `strcmp(name, va) == 0`. -/
def strEq (k : Kernel) (va : Nat) : List UInt8 → Except Halt Bool
  | [] => do
    let b ← k.loadU8 va
    .ok (b == 0)
  | c :: cs => do
    let b ← k.loadU8 va
    if b = c then k.strEq (va + 1) cs else .ok false

/-- The eight bytes of a pointer. -/
def loadU64 (k : Kernel) (va : Nat) : Except Halt Nat :=
  (List.range 8).foldlM (fun v i => do
    let b ← k.loadU8 (va + i)
    .ok (v + b.toNat * 256 ^ i)) 0

/-- `tarfs_lookup`. -/
def tarfsLookup (k : Kernel) (va : Nat) : Initramfs → Except Halt (Option Elf)
  | [] => .ok none
  | (name, elf) :: fs => do
    if ← k.strEq va name then .ok (some elf) else k.tarfsLookup va fs

/-! ## Calls -/

/-- `sys_sbrk`. -/
def sysSbrk (L : Layout) (k : Kernel) (increment : Int) : Except Halt (SysRet × Kernel) :=
  let p := k.procs k.cur
  let oldHeap := p.heapEnd
  let newHeap := ((oldHeap + increment) % 2 ^ 64).toNat
  if increment > 0 then do
    let s ← k.phys.mapLoop L k.owner p.pageTable (pteU ||| pteR ||| pteW ||| pteV)
      (fun _ _ => some (0, 0)) (pgRoundUp oldHeap) (Phys.pagesUpTo (pgRoundUp oldHeap) newHeap)
    .ok (.value oldHeap, { k with phys := s }.setProc k.cur { p with heapEnd := newHeap })
  else .ok (.value oldHeap, k.setProc k.cur { p with heapEnd := newHeap })

/-- Where the page of a child at `va` is copied from: the frame of its parent. -/
def forkSource (parentTable : Nat) (m : Mem) (va : Nat) : Option (Nat × Nat) :=
  if Phys.walkPage m parentTable va = 0 then none else some (Phys.walkPage m parentTable va, 4096)

/-- The copy of the parent's trap frame, and the results of both sides. -/
def forkFrames (m : Mem) (parentTf childTf childPid : Nat) : Mem :=
  let m := memcpy m childTf parentTf frameSize
  let m := setTfWord m childTf tfA0 0
  let m := setTfWord m parentTf tfA0 childPid
  let m := setTfWord m childTf tfSp (tfWord m parentTf tfSp)
  setTfWord m childTf tfEpc ((tfWord m parentTf tfEpc + 4) % 2 ^ 64)

/-- `sys_fork`. -/
def sysFork (L : Layout) (k : Kernel) : Except Halt (SysRet × Kernel) :=
  match k.allocFreeProc L with
  | none => .ok (.value (neg64 1), k)
  | some (c, k) => do
    let k := { k with processCount := k.processCount + 1 }
    let parent := k.procs k.cur
    let child := k.procs c
    let (tf, s) ← k.phys.allocPages L k.owner 1
    let s := { s with mem := forkFrames s.mem parent.tf tf child.pid }
    let (newPt, s) ← s.allocPages L k.owner 1
    let s ← s.mapRange L k.owner newPt kernelBase kernelBase (pteV ||| pteRWX) (identityPages L)
    let endVa := max parent.heapEnd parent.userStackTop
    let s ← s.mapLoop L k.owner newPt (pteV ||| pteU ||| pteRWX) (forkSource parent.pageTable) userBase
      (Phys.pagesUpTo userBase endVa)
    .ok (.value child.pid, { k with phys := s }.setProc c
      { child with
        tf := tf, pageTable := newPt, state := .runnable, heapEnd := parent.heapEnd
        userStackTop := parent.userStackTop, entryPoint := parent.entryPoint, parent := some k.cur
        parentPid := parent.pid, name := parent.name.take (procNameMaxLen - 1) })

/-- Row `i` of `argv_buf`. -/
def argvRow (argvBuf i : Nat) : Nat := argvBuf + maxArgLength * i

/-- The loop of `sys_exec` that copies the arguments, from argument `i` on. -/
def copyArgs (k : Kernel) (argvBuf argv i : Nat) : Nat → Except Halt Kernel
  | 0 => .ok k
  | n + 1 => do
    let ptr ← k.loadU64 (argv + 8 * i)
    let s ← k.loadStr ptr (maxArgLength - 1)
    let m := write k.phys.mem (argvRow argvBuf i) maxArgLength fun j => s.getD j 0
    { k with phys := { k.phys with mem := m } }.copyArgs argvBuf argv (i + 1) n

/-- The characters of row `i` up to its end. -/
def rowString (m : Mem) (argvBuf i : Nat) : List UInt8 :=
  ((List.range maxArgLength).map fun j => m (argvRow argvBuf i + j)).takeWhile (· != 0)

/-- The loop of `setup_user_arguments`: the strings of the first `n` arguments, the last one first. The
list holds `argv_ptrs`, of the arguments already done. -/
def pushArgs (L : Layout) (k : Kernel) (argvBuf : Nat) :
    Nat → Nat → List Nat → Except Halt (Nat × List Nat × Kernel)
  | 0, sp, ptrs => .ok (sp, ptrs, k)
  | n + 1, sp, ptrs => do
    let s := rowString k.phys.mem argvBuf n
    let sp := (sp + (2 ^ 64 - (s.length + 1))) % 2 ^ 64 / 8 * 8
    if sp < k.gUserStackBottom then
      .error (.panic "[setup_user_arguments] stack overflow while copying argv" [])
    else do
      let k ← k.storeBytes L sp (s ++ [0])
      k.pushArgs L argvBuf n sp (sp :: ptrs)

/-- `setup_user_arguments`: the new stack pointer, which is also where `argv` lies. -/
def setupUserArguments (L : Layout) (k : Kernel) (argvBuf argc sp : Nat) : Except Halt (Nat × Kernel) :=
  -- `argv_ptrs` has room for MAX_ARGS pointers and the null pointer
  if argc > maxArgs then .error .undefined
  else do
    let (sp, ptrs, k) ← k.pushArgs L argvBuf argc sp []
    let sp := (sp + (2 ^ 64 - (argc + 1) * 8)) % 2 ^ 64 / 8 * 8
    if sp < k.gUserStackBottom then
      .error (.panic "[setup_user_arguments] stack overflow during argv[] copy" [])
    else do
      let k ← k.storeBytes L sp ((ptrs ++ [0]).flatMap fun p => (List.range 8).map (byteOf p))
      .ok (sp, k)

/-- The first `.elf` of the string, if it ends the string, is cut off. -/
def cutElf : List UInt8 → List UInt8
  | [] => []
  | c :: cs =>
    if (c :: cs).take 4 = [46, 101, 108, 102] then if cs.length = 3 then [] else c :: cs
    else c :: cutElf cs

/-- `strip_elf_extension`. -/
def stripElfExtension (progname : List UInt8) : List UInt8 := cutElf (progname.take (procNameMaxLen - 1))

/-- The copy of the arguments that `sys_exec` makes, when there are any. -/
def copyArgv (k : Kernel) (argvBuf argv : Nat) (argc : Int) : Except Halt Kernel :=
  if argc > 1 then k.copyArgs argvBuf argv 0 argc.toNat else .ok k

def setName (k : Kernel) (i : Fin procsMax) (name : List UInt8) : Kernel :=
  k.setProc i { k.procs i with name := name }

/-- The new program has its name, and its address space is active. -/
def activate (L : Layout) (k : Kernel) (ep : Fin procsMax) (name : List UInt8) : Kernel :=
  let k := k.setName ep name
  { k with satp := (k.procs ep).pageTable, sscratch := L.tfTop ep }

/-- The stack pointer of the new program and its `argv`. -/
def pushArgv (L : Layout) (k : Kernel) (argvBuf : Nat) (argc : Int) : Except Halt (Nat × Nat × Kernel) :=
  if argc > 1 then do
    let (sp, k) ← k.setupUserArguments L argvBuf argc.toNat k.gUserStackTop
    .ok (sp, sp, k)
  else .ok (k.gUserStackTop, 0, k)

/-- `argv_buf` is freed, and the trap frame of the new program is made. -/
def execFrame (L : Layout) (k : Kernel) (ep : Fin procsMax) (argvBuf sp : Nat) : Kernel :=
  let s := k.phys.freePage argvBuf
  let tf := (k.procs ep).tf
  let m := memset s.mem tf 0 frameSize
  let m := setTfWord m tf tfEpc userBase
  let m := setTfWord m tf tfRa L.userReturn
  let m := setTfWord m tf tfSp sp
  { k with phys := { s with mem := m } }

/-- `sys_exec` of a program of the RAM disk. -/
def execElf (L : Layout) (k : Kernel) (elf : Elf) (prognameBuf : List UInt8) (argv : Nat) (argc : Int) :
    Except Halt (SysRet × Kernel) := do
  let (argvBuf, s) ← k.phys.allocPages L k.owner 1
  let k ← { k with phys := s }.copyArgv argvBuf argv argc
  let k ← { k with satp := k.kernelPagetable }.processFreeUserspace k.cur
  let (ep, k) ← k.extractFlatBinaryFromElf L elf false
  let (sp, argvPtr, k) ← (k.activate L ep (stripElfExtension prognameBuf)).pushArgv L argvBuf argc
  let k := k.execFrame L ep argvBuf sp
  let k := k.setProc k.cur { k.procs k.cur with argc := argc, argvPtr := argvPtr }
  let (k, switched) := k.yield L
  .ok (if switched then .switched else .value 0, k)

/-- `sys_exec`. -/
def sysExec (L : Layout) (fs : Initramfs) (k : Kernel) (progname argv : Nat) (argc : Int) :
    Except Halt (SysRet × Kernel) := do
  let prognameBuf ← k.loadStr progname (procNameMaxLen - 1)
  match ← k.tarfsLookup progname fs with
  | none => .ok (.value (neg64 1), k)
  | some elf => k.execElf L elf prognameBuf argv argc

/-- `sys_exit`. -/
def sysExit (k : Kernel) (code : Nat) : Kernel :=
  k.setProc k.cur { k.procs k.cur with state := .zombie, exitCode := code }

/-- The zombie that `sys_wait` finds. -/
def findZombie (k : Kernel) : Option (Fin procsMax) :=
  (List.finRange procsMax).find? fun i =>
    (k.procs i).state == .zombie && (k.procs i).parent == some k.cur

/-- `*status = p->exit_code`, an `int`, where `status` is not NULL. -/
def storeStatus (L : Layout) (k : Kernel) (status code : Nat) : Except Halt Kernel :=
  if status = 0 then .ok k else k.storeBytes L status ((List.range 4).map (byteOf code))

/-- `sys_wait`. -/
def sysWait (L : Layout) (k : Kernel) (status : Nat) : Except Halt (SysRet × Kernel) :=
  match k.findZombie with
  | some i => do
    let k ← k.storeStatus L status (k.procs i).exitCode
    let deadPid := (k.procs i).pid
    let k ← k.freeProc i
    .ok (.value deadPid, k)
  | none =>
    match k.yield L with
    | (k, true) => .ok (.switched, k)
    -- `yield` came back, and with interrupts off no child becomes a zombie
    | (_, false) => .error .spin

end Kernel

/-! ## Boot -/

/-- The state after `bss_init`. -/
def Kernel.reset (L : Layout) (m : Mem) : Kernel where
  phys :=
    { mem := m, freeList := 0, nextPaddr := L.freeRam, gFreePages := 0
      allocTable := fun _ => {}, allocTableCount := 0 }
  procs := fun _ => {}
  currentProc := none
  idleProc := 0
  processCount := 0
  gUserStackTop := 0
  gUserStackBottom := 0
  gUserHeapStart := 0
  gUserHeapEnd := 0
  gStartup := true
  kernelPagetable := 0
  satp := 0
  sscratch := 0

/-- `paging_init`. -/
def Kernel.pagingInit (L : Layout) (k : Kernel) : Except Halt Kernel := do
  let (pt, s) ← k.phys.allocPages L k.owner 1
  let s ← s.mapRange L k.owner pt kernelBase kernelBase (pteV ||| pteRWX)
    (Phys.pagesUpTo kernelBase L.heapEnd)
  -- the eight devices of `map_mmio_range`
  let s ← s.mapRange L k.owner pt 0x10001000 0x10001000 (pteV ||| pteR ||| pteW) 8
  .ok { k with phys := s, kernelPagetable := pt, satp := pt }

/-- The file of the RAM disk with this name. -/
def Initramfs.find (fs : Initramfs) (name : List UInt8) : Option Elf :=
  (List.find? (fun f => f.1 == name) fs).map Prod.snd

/-- "idle.elf" and "shell.elf". -/
def idleName : List UInt8 := [105, 100, 108, 101, 46, 101, 108, 102]

def shellName : List UInt8 := [115, 104, 101, 108, 108, 46, 101, 108, 102]

/-- The first process is idle: it gets the pid 0 and is the current process. -/
def Kernel.makeIdle (k : Kernel) (idle : Fin procsMax) : Kernel :=
  { k with idleProc := idle, currentProc := some idle }.setProc idle
    { k.procs idle with pid := 0, name := idleName.take 4 }

/-- `kernel_main` up to the first process: idle and the shell exist, and `yield` has chosen one. -/
def kernelMain (L : Layout) (fs : Initramfs) (m : Mem) : Except Halt Kernel := do
  let k ← (Kernel.reset L m).pagingInit L
  match fs.find idleName with
  | none => .error (.panic "[kernel_main] idle.elf not found!" [])
  | some elf =>
    let (idle, k) ← k.extractFlatBinaryFromElf L elf true
    match fs.find shellName with
    | none => .error (.panic "[kernel_main] shell.elf not found!\n" [])
    | some elf =>
      let (s, k) ← (k.makeIdle idle).extractFlatBinaryFromElf L elf true
      .ok ((k.setName s (shellName.take 5)).yield L).1

end RiscvOs
