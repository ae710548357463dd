import RiscvOs.Time
import RiscvOs.Lib.CString

/-!
# The RAM disk

`tar-parser.c` and `sys_ls` of `syscall.c`: the archive between `_binary_initramfs_tar_start` and
`_binary_initramfs_tar_end` as it lies in memory. A scan that comes to an end visits no address twice.
-/

namespace RiscvOs

open ByteMem CString

/-- `TAR_BLOCK_SIZE`. -/
def tarBlockSize : Nat := 512

/-- The place of `size` inside `struct tar_header`. -/
def tarSizeField : Nat := 124

/-- `size = (size << 3) + (hdr->size[i] - '0')` for the eleven digits, in 64 bits. -/
def tarSize (m : Mem) (ptr : Nat) : Nat :=
  (List.range 11).foldl (fun size i => (size * 8 + ((m (ptr + tarSizeField + i)).toNat + (2 ^ 64 - 48))) % 2 ^ 64) 0

/-- `ptr += (1 + blocks) * TAR_BLOCK_SIZE`. -/
def tarNext (m : Mem) (ptr : Nat) : Nat :=
  let blocks := (tarSize m ptr + tarBlockSize - 1) % 2 ^ 64 / tarBlockSize
  (ptr + (1 + blocks) * tarBlockSize) % 2 ^ 64

/-- The loop of `tarfs_lookup`. -/
def tarfsLookupFrom (m : Mem) (stop : Nat) (filename : List UInt8) : Nat → Nat → Except Halt (Option (Nat × Nat))
  | 0, _ => .error .spin
  | n + 1, ptr =>
    if ptr < stop then
      if m ptr = 0 then .ok none
      else if eqAt m ptr filename then .ok (some (ptr + tarBlockSize, tarSize m ptr))
      else tarfsLookupFrom m stop filename n (tarNext m ptr)
    else .ok none

/-- `tarfs_lookup(filename, &filesize, 0)`: the address of the data with `filesize`, `none` for NULL. -/
def tarfsLookup (m : Mem) (start stop : Nat) (filename : List UInt8) : Except Halt (Option (Nat × Nat)) :=
  tarfsLookupFrom m stop filename (2 ^ 64 + 1) start

/-- The headers that such a loop reads, in their order; at those of `found` it ends. -/
def tarHeaders (m : Mem) (stop : Nat) (found : Nat → Bool) : Nat → Nat → List Nat
  | 0, _ => []
  | n + 1, ptr =>
    if ptr < stop then
      if found ptr then [ptr] else ptr :: tarHeaders m stop found n (tarNext m ptr)
    else []

/-- The loop of `sys_ls`, with what it prints. -/
def sysLsFrom (m : Mem) (stop : Nat) : Nat → Nat → Except Halt (List UInt8)
  | 0, _ => .error .spin
  | n + 1, ptr =>
    if ptr < stop then
      if m ptr = 0 then .ok []
      else do
        let rest ← sysLsFrom m stop n (tarNext m ptr)
        .ok (ascii "  " ++ strOf m (2 ^ 64) ptr ++ ascii "\n" ++ rest)
    else .ok []

/-- The scan of `tarfs_lookup` ends at a header without a name and at one with the name `filename`. -/
def lookupEnds (m : Mem) (filename : List UInt8) (ptr : Nat) : Bool := m ptr == 0 || eqAt m ptr filename

/-- The scan of `sys_ls` ends at a header without a name. -/
def lsEnds (m : Mem) (ptr : Nat) : Bool := m ptr == 0

/-- `sys_ls`. -/
def sysLs (m : Mem) (start stop : Nat) : Except Halt (List UInt8) := do
  let lines ← sysLsFrom m stop (2 ^ 64 + 1) start
  .ok (ascii "Files in tarfs:\n" ++ lines)

end RiscvOs
