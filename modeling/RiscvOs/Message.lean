import RiscvOs.Syscall

/-!
# System calls on bytes

The console, the log, the calls that fill a structure of the caller, and the messages between processes:
the rest of `syscall.c`, and `copy_to_user` of `user.c`.
-/

namespace RiscvOs

open ByteMem

/-- An `int` in a 64-bit register. -/
def sext32 (n : Nat) : Nat :=
  let w := n % 2 ^ 32
  if w < 2 ^ 31 then w else w + (2 ^ 64 - 2 ^ 32)

/-- `MAX_MSG_SIZE`. -/
def maxMsgSize : Nat := 256

/-- '\n'. -/
def newline : UInt8 := 10

/-- `get_proc_by_pid`. -/
def getProcByPid (pid : Int) : Option (Fin procsMax) :=
  if h : 0 < pid ∧ pid ≤ procsMax then some ⟨(pid - 1).toNat, by omega⟩ else none

/-- The inbox after a message with these bytes has been copied to it. -/
def IpcMessage.fill (msg : IpcMessage) (bytes : List UInt8) (sender : Nat) : IpcMessage where
  data := fun j => bytes.getD j (msg.data j)
  size := bytes.length
  sender := sender
  pending := true

/-- The bytes of the message that `sys_ipc_recv` copies. -/
def IpcMessage.copied (msg : IpcMessage) (maxSize : Nat) : List UInt8 :=
  (List.range (min msg.size maxSize)).map msg.data

namespace Kernel

/-- `n` bytes from `va` on. -/
def loadBytes (k : Kernel) (va : Nat) : Nat → Except Halt (List UInt8)
  | 0 => .ok []
  | n + 1 => do
    let b ← k.loadU8 va
    let bs ← k.loadBytes (va + 1) n
    .ok (b :: bs)

/-! ## Console and log -/

/-- The loop of `sys_read` from character `i` on, with `n` to go. The list is what `uart_getc` has yet to
give; when there is nothing more, the loop waits for ever. -/
def readLoop (L : Layout) (k : Kernel) (buf i : Nat) :
    Nat → List UInt8 → Except Halt (SysRet × Kernel × List UInt8)
  | 0, input => .ok (.value i, k, input)
  | _ + 1, [] => .error .spin
  | n + 1, c :: input => do
    let k ← k.storeU8 L (buf + i) c
    if c = newline then .ok (.value (i + 1), k, input)
    else
      match k.yield L with
      | (k, true) => .ok (.switched, k, input)
      | (k, false) => k.readLoop L buf (i + 1) n input

/-- The arguments that `sys_read` refuses. -/
def readRefused (fd buf len : Nat) : Bool := fd % 2 ^ 32 != 0 || buf == 0 || len == 0

/-- `sys_read`. -/
def sysRead (L : Layout) (k : Kernel) (fd buf len : Nat) (input : List UInt8) :
    Except Halt (SysRet × Kernel × List UInt8) :=
  if readRefused fd buf len then .ok (.value (neg64 1), k, input)
  else k.readLoop L buf 0 len input

/-- `sys_write`, with the characters that it puts out. -/
def sysWrite (k : Kernel) (fd buf len : Nat) : Except Halt (SysRet × List UInt8) :=
  if fd ≠ 1 then .ok (.value (neg64 1), [])
  else do
    let out ← k.loadBytes buf len
    .ok (.value (sext32 len), out)

/-- `sys_log`, with the text that it logs. -/
def sysLog (k : Kernel) (msg : Nat) : Except Halt (SysRet × List UInt8) :=
  if msg = 0 then .ok (.value (neg64 1), [])
  else do
    let text ← k.loadStr msg 255
    .ok (.value 0, text)

/-- SYS_TARFS_EXISTS. -/
def sysTarfsExists (k : Kernel) (fs : Initramfs) (filename : Nat) : Except Halt SysRet := do
  let file ← k.tarfsLookup filename fs
  .ok (.value (if file.isSome then 1 else 0))

/-! ## Structures of the caller -/

/-- `copy_to_user` of these bytes. The bytes before a page that is missing are copied. -/
def copyToUser (L : Layout) (k : Kernel) (dstUser : Nat) : List UInt8 → Except Halt (SysRet × Kernel)
  | [] => .ok (.value 0, k)
  | b :: bs => do
    let pa ← k.phys.walkaddr L k.owner (k.procs k.cur).pageTable (dstUser % 2 ^ 64)
    if pa = 0 then .ok (.value (neg64 1), k)
    else do
      let k ← k.storeU8 L pa b
      k.copyToUser L (dstUser + 1) bs

/-- `struct sysinfo`: the pages of free RAM, and those on the free list. -/
def sysinfo (k : Kernel) : List UInt8 :=
  [0x4000, k.phys.gFreePages].flatMap fun v => (List.range 8).map (byteOf v)

/-- `sys_sysinfo`. -/
def sysSysinfo (L : Layout) (k : Kernel) (arg0 : Nat) : Except Halt (SysRet × Kernel) :=
  k.copyToUser L arg0 k.sysinfo

/-- `sys_time`, when the clock gives this `struct DateTime`. -/
def sysTime (L : Layout) (k : Kernel) (arg0 : Nat) (dt : List UInt8) : Except Halt (SysRet × Kernel) :=
  k.copyToUser L arg0 dt

/-! ## Messages -/

def setInbox (k : Kernel) (i : Fin procsMax) (msg : IpcMessage) : Kernel :=
  k.setProc i { k.procs i with inbox := msg }

/-- `sys_ipc_send`. -/
def sysIpcSend (k : Kernel) (destPid : Int) (buf size : Nat) : Except Halt (SysRet × Kernel) :=
  if destPid < 0 ∨ procsMax ≤ destPid then .ok (.value (neg64 1), k)
  else
    match getProcByPid destPid with
    | none => .error (.panic "[sys_ipc_send] Error with dest_pid %d" [destPid.toNat])
    | some dest =>
      if size > maxMsgSize then .ok (.value (neg64 2), k)
      else if (k.procs dest).inbox.pending then .ok (.value (neg64 2), k)
      else do
        let bytes ← k.loadBytes buf size
        .ok (.value 0, k.setInbox dest ((k.procs dest).inbox.fill bytes (k.procs k.cur).pid))

/-- `*sender_pid = msg->sender`, where `sender_pid` is not NULL. -/
def storeSender (L : Layout) (k : Kernel) (senderPid sender : Nat) : Except Halt Kernel :=
  if senderPid = 0 then .ok k else k.storeBytes L senderPid ((List.range 4).map (byteOf sender))

/-- `sys_ipc_recv`. -/
def sysIpcRecv (L : Layout) (k : Kernel) (buf maxSize senderPid : Nat) : Except Halt (SysRet × Kernel) :=
  let msg := (k.procs k.cur).inbox
  if !msg.pending then .ok (.value (neg64 1), k)
  else do
    let copySize := min msg.size maxSize
    let k ← k.storeBytes L buf (msg.copied maxSize)
    let k ← k.storeSender L senderPid msg.sender
    let k := k.setInbox k.cur { msg with pending := false }
    .ok (.value (if copySize = 1 then neg64 1 else sext32 copySize), k)

end Kernel

end RiscvOs
