import RiscvOs.Elf

/-!
# Processes

`process.c`, `scheduler.c` and the part of `elf-loader.c` that makes a process: the process table, the
construction and the release of address spaces, and `yield`.
-/

namespace RiscvOs

open ByteMem

/-- `proc_state_t`. -/
inductive PState
  | unused
  | runnable
  | running
  | waiting
  | zombie
  deriving Repr, DecidableEq

/-- `ipc_message_t`. -/
structure IpcMessage where
  data : Nat → UInt8 := fun _ => 0
  size : Nat := 0
  sender : Nat := 0
  pending : Bool := false

/-- `proc_t`. A pointer to a process is its index in `procs`, a pointer to a page table or a trap frame its
address. `tf_stack` lies in memory. -/
structure Proc where
  pid : Nat := 0
  state : PState := .unused
  parentPid : Nat := 0
  exitCode : Nat := 0
  parent : Option (Fin procsMax) := none
  entryPoint : Nat := 0
  userStackTop : Nat := 0
  heapEnd : Nat := 0
  sp : Nat := 0
  pageTable : Nat := 0
  tf : Nat := 0
  imagePa : Nat := 0
  imageNpages : Nat := 0
  inbox : IpcMessage := {}
  name : List UInt8 := []
  argc : Int := 0
  argvPtr : Nat := 0

structure Kernel where
  phys : Phys
  procs : Fin procsMax → Proc
  currentProc : Option (Fin procsMax)
  idleProc : Fin procsMax
  processCount : Int
  gUserStackTop : Nat
  gUserStackBottom : Nat
  gUserHeapStart : Nat
  gUserHeapEnd : Nat
  gStartup : Bool
  kernelPagetable : Nat
  /-- the root of the page table that is active -/
  satp : Nat
  sscratch : Nat

/-! ## Trap frames -/

/-- Word `i` of the trap frame at `tf`: the registers of `regs_t` in their order, `sp` and `epc`. -/
def tfWord (m : Mem) (tf : Nat) (i : Nat) : Nat := load64 m (tf + 8 * i)

def setTfWord (m : Mem) (tf : Nat) (i v : Nat) : Mem := store64 m (tf + 8 * i) v

def tfRa : Nat := 0
def tfA0 : Nat := 10
def tfSp : Nat := 30
def tfEpc : Nat := 31

namespace Kernel

/-- `*current_proc`; before idle exists no process is read. -/
def cur (k : Kernel) : Fin procsMax := k.currentProc.getD 0

/-- `current_proc ? current_proc->pid : 0`. -/
def owner (k : Kernel) : Nat := (k.currentProc.map fun i => (k.procs i).pid).getD 0

def setProc (k : Kernel) (i : Fin procsMax) (p : Proc) : Kernel :=
  { k with procs := Function.update k.procs i p }

/-- The first slot of the process table that is not in use. -/
def freeSlot (k : Kernel) : Option (Fin procsMax) :=
  (List.finRange procsMax).find? fun i => (k.procs i).state == .unused

/-- `alloc_free_proc`: the fields of the slot are cleared, and with them its kernel stack. -/
def allocFreeProc (L : Layout) (k : Kernel) : Option (Fin procsMax × Kernel) :=
  k.freeSlot.map fun i =>
    let stack := L.procAddr i + tfStackStart
    let k := { k with phys := { k.phys with mem := memset k.phys.mem stack 0 (tfStackEnd - tfStackStart) } }
    (i, k.setProc i { pid := i + 1 })

end Kernel

/-! ## Address spaces -/

/-- The pages of the identity map. -/
def identityPages (L : Layout) : Nat := Phys.pagesUpTo kernelBase L.freeRamEnd

def pteRWX : Nat := pteR ||| pteW ||| pteX

namespace Phys

/-- Where the page at `va` of the program is copied from. -/
def imageSource (flatImage imageSize va : Nat) : Nat × Nat :=
  let i := (va - userBase) / 4096
  (flatImage + i * 4096,
    if i = (imageSize + 4095) / 4096 - 1 then imageSize - i * 4096 else 4096)

/-- The steps that `create_init_process` and `exec_process` have in common: a root table, the identity map
of the kernel, the program, its stack and the first page of its heap. -/
def buildSpace (L : Layout) (s : Phys) (owner flatImage imageSize top bottom heapStart : Nat) :
    Except Halt (Nat × Phys) := do
  let (pt, s) ← s.allocPages L owner 1
  let s ← s.mapRange L owner pt kernelBase kernelBase (pteV ||| pteRWX) (identityPages L)
  let s ← s.mapLoop L owner pt (pteV ||| pteU ||| pteRWX)
    (fun _ va => some (imageSource flatImage imageSize va)) userBase ((imageSize + 4095) / 4096)
  -- the top of the stack is mapped too; where the program reaches into the stack, its pages are replaced
  let s ← s.mapLoop L owner pt (pteV ||| pteR ||| pteW ||| pteU) (fun _ _ => some (0, 0)) bottom
    (if bottom ≤ top then (top - bottom) / 4096 + 1 else 0)
  let (heapPage, s) ← s.allocPages L owner 1
  let s ← s.mapPage L owner pt heapStart heapPage (pteV ||| pteU ||| pteR ||| pteW)
  .ok (pt, { s with mem := memset s.mem heapPage 0 4096 })

/-- One round of the loop of `process_free_userspace`. -/
def freeLeaf (s : Phys) (root va : Nat) : Except Halt Phys :=
  let pte := leafPte s.mem root va
  if !pteHas pte pteV || !pteHas pte pteU then .ok s
  else do
    let s ← s.unmapPage root va
    .ok (s.freePage (pte2pa pte))

/-- `k` rounds of it, from `va` on. -/
def freeLeaves (s : Phys) (root va : Nat) : Nat → Except Halt Phys
  | 0 => .ok s
  | k + 1 => do
    let s ← s.freeLeaf root va
    s.freeLeaves root (va + 4096) k

end Phys

namespace Kernel

/-- `process_free_userspace(p)`. -/
def processFreeUserspace (k : Kernel) (i : Fin procsMax) : Except Halt Kernel :=
  let p := k.procs i
  if p.pageTable = 0 then .ok k
  else
    let endVa := pgRoundUp (max p.heapEnd k.gUserStackTop)
    if endVa ≥ 2 ^ 64 - 4096 then .error .spin
    else do
      let s ← k.phys.freeLeaves p.pageTable userBase
        (if userBase ≤ endVa then (endVa - userBase) / 4096 + 1 else 0)
      let s ← Phys.freePagetable 2 s p.pageTable
      .ok ({ k with phys := s.freePage p.pageTable }.setProc i { p with pageTable := 0 })

/-- `free_proc`. -/
def freeProc (k : Kernel) (i : Fin procsMax) : Except Halt Kernel := do
  let p := { k.procs i with tf := 0 }
  let k :=
    if p.imagePa ≠ 0 then
      { k with phys := k.phys.freePagesRange p.imagePa p.imageNpages }.setProc i
        { p with imagePa := 0, imageNpages := 0 }
    else k.setProc i p
  let k ← k.processFreeUserspace i
  let k := { k with phys := k.phys.freeAllTrackedForPid (k.procs i).pid }
  let p := k.procs i
  .ok ({ k with processCount := k.processCount - 1 }.setProc i
    { p with
      state := .unused, pid := 0, parent := none, name := [], heapEnd := 0, userStackTop := 0
      argc := 0, argvPtr := 0 })

/-- The trap frame on the kernel stack of `create_init_process`. -/
def initFrame (L : Layout) (k : Kernel) (i : Fin procsMax) : Kernel :=
  let tf := L.tfStackFrame i
  let m := memset k.phys.mem tf 0 frameSize
  let m := setTfWord m tf tfSp k.gUserStackTop
  let m := setTfWord m tf tfRa L.userEntry
  let m := setTfWord m tf tfEpc userBase
  { k with phys := { k.phys with mem := m } }

/-- `create_init_process`. -/
def createInitProcess (L : Layout) (k : Kernel) (flatImage imageSize : Nat) :
    Except Halt (Fin procsMax × Kernel) :=
  match k.freeSlot with
  | none => .error (.panic "[create_init_process] No free PCB" [])
  | some i => do
    let k := { k.initFrame L i with processCount := k.processCount + 1 }
    let tf := L.tfStackFrame i
    let p := { k.procs i with tf := tf, sp := tf }
    let p := match k.currentProc with
      | some c => { p with parent := some c, parentPid := (k.procs c).pid }
      | none => p
    let (pt, s) ← k.phys.buildSpace L k.owner flatImage imageSize k.gUserStackTop k.gUserStackBottom
      k.gUserHeapStart
    .ok (i, { k with phys := s }.setProc i
      { p with
        pageTable := pt, pid := 1 + i, state := .runnable, heapEnd := k.gUserHeapStart + 4096
        userStackTop := k.gUserStackTop, entryPoint := userBase, imagePa := flatImage
        imageNpages := (imageSize + 4095) / 4096 })

/-- `exec_process`. -/
def execProcess (L : Layout) (k : Kernel) (flatImage imageSize : Nat) :
    Except Halt (Fin procsMax × Kernel) := do
  let (pt, s) ← k.phys.buildSpace L k.owner flatImage imageSize k.gUserStackTop k.gUserStackBottom
    k.gUserHeapStart
  .ok (k.cur, { k with phys := s }.setProc k.cur
    { k.procs k.cur with
      tf := L.tfStackFrame k.cur, pageTable := pt, state := .running
      heapEnd := k.gUserHeapStart + 4096, userStackTop := k.gUserStackTop, entryPoint := userBase
      imagePa := flatImage, imageNpages := (imageSize + 4095) / 4096 })

/-- `extract_flat_binary_from_elf` up to the process: the flat image in memory, and the symbols. -/
def loadImage (L : Layout) (k : Kernel) (elf : Elf) : Except Halt (Nat × Kernel) :=
  if elf.eMagic ≠ elfMagic then .error (.panic "Invalid ELF magic" [])
  else do
    let (flatImage, s) ← k.phys.allocPages L k.owner ((elf.imageSize + 4095) / 4096)
    let m := elf.copySegments (memset s.mem flatImage 0 elf.imageSize) flatImage
    let top ← elf.getSymbolAddress "__user_stack_top"
    let bottom ← elf.getSymbolAddress "__user_stack_bottom"
    let heapStart ← elf.getSymbolAddress "__user_heap_start"
    let heapEnd ← elf.getSymbolAddress "__user_heap_end"
    .ok (flatImage, { k with
      phys := { s with mem := m }
      gUserStackTop := top, gUserStackBottom := bottom
      gUserHeapStart := heapStart, gUserHeapEnd := heapEnd })

/-- `extract_flat_binary_from_elf`. -/
def extractFlatBinaryFromElf (L : Layout) (k : Kernel) (elf : Elf) (createProcess : Bool) :
    Except Halt (Fin procsMax × Kernel) := do
  let (flatImage, k) ← k.loadImage L elf
  if createProcess then k.createInitProcess L flatImage elf.imageSize
  else k.execProcess L flatImage elf.imageSize

/-! ## Scheduling -/

/-- The search of `yield` for another process to run. -/
def pickNext (k : Kernel) : Fin procsMax :=
  ((List.finRange procsMax).find? fun i =>
    i != 0 && (k.procs i).pid != 0 && (k.procs i).state == .runnable &&
      (k.processCount == 2 || i != k.cur)).getD k.idleProc

/-- The state of a process after `if (state == from) state = to`. -/
def changeState (k : Kernel) (i : Fin procsMax) (src dst : PState) : Kernel :=
  if (k.procs i).state = src then k.setProc i { k.procs i with state := dst } else k

/-- `yield`. The flag says whether it leaves the kernel, through `user_return` of the process chosen or, at
startup, through `switch_context_sp`; otherwise it returns to its caller. -/
def yield (L : Layout) (k : Kernel) : Kernel × Bool :=
  let prev := k.cur
  let k := k.changeState prev .running .runnable
  let next := k.pickNext
  if next = prev then (k, false)
  else
    let k := k.changeState prev .running .runnable
    let k := k.changeState next .runnable .running
    ({ k with
      satp := (k.procs next).pageTable, sscratch := L.tfTop next, currentProc := some next
      gStartup := false }, true)

end Kernel

end RiscvOs
