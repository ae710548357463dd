import RiscvOs.Image
import RiscvOs.Syscall

/-!
# The buffers of `sys_exec`

Which rows of `argv_buf` and which entries of `argv_ptrs` a call uses. `argv_buf` is one page, and `argv_ptrs` an
array on the kernel stack with MAX_ARGS + 1 entries.
-/

namespace RiscvOs

open ByteMem

/-- The rows that `argv_buf` has room for. -/
def argvRows : Nat := 4096 / maxArgLength

namespace Kernel

/-- The rows that `sys_exec` fills, from row `i` on with `n` to go: a fault ends the loop. -/
def filledRows (k : Kernel) (argvBuf argv i : Nat) : Nat → List Nat
  | 0 => []
  | n + 1 =>
    match k.loadU64 (argv + 8 * i) with
    | .error _ => []
    | .ok ptr =>
      i :: match k.loadStr ptr (maxArgLength - 1) with
        | .error _ => []
        | .ok s =>
          let m := write k.phys.mem (argvRow argvBuf i) maxArgLength fun j => s.getD j 0
          { k with phys := { k.phys with mem := m } }.filledRows argvBuf argv (i + 1) n

/-- The rows that `setup_user_arguments` reads, with `n` to go. -/
def readRows (L : Layout) (k : Kernel) (argvBuf : Nat) : Nat → Nat → List Nat
  | 0, _ => []
  | n + 1, sp =>
    let s := rowString k.phys.mem argvBuf n
    let sp := (sp + (2 ^ 64 - (s.length + 1))) % 2 ^ 64 / 8 * 8
    n :: if sp < k.gUserStackBottom then []
      else match k.storeBytes L sp (s ++ [0]) with
        | .error _ => []
        | .ok k => k.readRows L argvBuf n sp

/-- The entries of `argv_ptrs` that it sets in its loop. -/
def setPtrs (L : Layout) (k : Kernel) (argvBuf : Nat) : Nat → Nat → List Nat
  | 0, _ => []
  | n + 1, sp =>
    let s := rowString k.phys.mem argvBuf n
    let sp := (sp + (2 ^ 64 - (s.length + 1))) % 2 ^ 64 / 8 * 8
    if sp < k.gUserStackBottom then []
    else match k.storeBytes L sp (s ++ [0]) with
      | .error _ => []
      | .ok k => n :: k.setPtrs L argvBuf n sp

/-- All of them: the null pointer comes last. -/
def allPtrs (L : Layout) (k : Kernel) (argvBuf argc : Nat) : List Nat :=
  k.setPtrs L argvBuf argc k.gUserStackTop ++
    match k.pushArgs L argvBuf argc k.gUserStackTop [] with
    | .error _ => []
    | .ok _ => [argc]

/-- `sys_exec` of a program up to `setup_user_arguments`. -/
def execLoad (L : Layout) (k : Kernel) (elf : Elf) (prognameBuf : List UInt8) (argv : Nat) (argc : Int) :
    Except Halt (Nat × Fin procsMax × Kernel) := do
  let (argvBuf, s) ← k.phys.allocPages L k.owner 1
  let k ← { k with phys := s }.copyArgv argvBuf argv argc
  let k ← { k with satp := k.kernelPagetable }.processFreeUserspace k.cur
  let (ep, k) ← k.extractFlatBinaryFromElf L elf false
  .ok (argvBuf, ep, k.activate L ep (stripElfExtension prognameBuf))

/-- The rows that `sys_exec` of a program fills. -/
def execRows (L : Layout) (k : Kernel) (argv : Nat) (argc : Int) : List Nat :=
  match k.phys.allocPages L k.owner 1 with
  | .error _ => []
  | .ok (argvBuf, s) => { k with phys := s }.filledRows argvBuf argv 0 argc.toNat

/-- The rows and the entries that `sys_exec` of a program uses. -/
def execIndices (L : Layout) (k : Kernel) (elf : Elf) (prognameBuf : List UInt8) (argv : Nat) (argc : Int) :
    List Nat × List Nat :=
  if argc > 1 then
    match k.execLoad L elf prognameBuf argv argc with
    | .error _ => (k.execRows L argv argc, [])
    | .ok (argvBuf, _, loaded) =>
      (k.execRows L argv argc ++ loaded.readRows L argvBuf argc.toNat loaded.gUserStackTop,
        loaded.allPtrs L argvBuf argc.toNat)
  else ([], [])

/-- The rows and the entries that `sys_exec` uses. -/
def sysExecIndices (L : Layout) (fs : Initramfs) (k : Kernel) (progname argv : Nat) (argc : Int) :
    List Nat × List Nat :=
  match k.loadStr progname (procNameMaxLen - 1), k.tarfsLookup progname fs with
  | .ok prognameBuf, .ok (some elf) => k.execIndices L elf prognameBuf argv argc
  | _, _ => ([], [])

end Kernel

end RiscvOs
