import RiscvOs.Copy
import RiscvOs.Process

/-!
# The stores of the loader

`extract_flat_binary_from_elf` byte by byte, for program headers of any kind. The page table of the kernel is
active, so that a byte outside the memory of the kernel and the devices faults.
-/

namespace RiscvOs

open ByteMem

/-- `kernel_pagetable` maps the byte at `a`, to itself. -/
def Layout.Mapped (L : Layout) (a : Nat) : Prop := kernelBase ≤ a ∧ a < L.heapEnd ∨ 0x10001000 ≤ a ∧ a < 0x10009000

instance (L : Layout) (a : Nat) : Decidable (L.Mapped a) := inferInstanceAs (Decidable (_ ∨ _))

/-- The first page that `alloc_pages(n)` would hand out. -/
def Phys.nextBlock (s : Phys) (n : Nat) : Nat := if n = 1 ∧ s.freeList ≠ 0 then s.freeList else s.nextPaddr

namespace Elf

/-- `memcpy` of a segment from byte `j` on, with `n` bytes to go. The file lies at `elfData`. What the kernel does
after a store beyond the flat image has no meaning. -/
def copyBytes (L : Layout) (elf : Elf) (elfData flatImage : Nat) (p : Phdr) (m : Mem) (j : Nat) :
    Nat → Except Halt Mem
  | 0 => .ok m
  | n + 1 =>
    let src := (elfData + p.pOffset + j) % 2 ^ 64
    let dest := (flatImage + (p.pVaddr + (2 ^ 64 - elf.minVaddr)) + j) % 2 ^ 64
    if ¬L.Mapped src then .error (.fault src)
    else if ¬L.Mapped dest then .error (.fault dest)
    else if flatImage ≤ dest ∧ dest < flatImage + elf.imageSize then
      elf.copyBytes L elfData flatImage p (Function.update m dest (m src)) (j + 1) n
    else .error .undefined

/-- The loop over the segments. -/
def copyLoads (L : Layout) (elf : Elf) (elfData flatImage : Nat) (m : Mem) : List Phdr → Except Halt Mem
  | [] => .ok m
  | p :: ps => do
    let m ← elf.copyBytes L elfData flatImage p m 0 p.pFilesz
    elf.copyLoads L elfData flatImage m ps

end Elf

namespace Kernel

/-- The symbols of the program become the globals of the kernel. -/
def readSymbols (k : Kernel) (elf : Elf) : Except Halt Kernel := do
  let top ← elf.getSymbolAddress "__user_stack_top"
  let bottom ← elf.getSymbolAddress "__user_stack_bottom"
  let heapStart ← elf.getSymbolAddress "__user_heap_start"
  let heapEnd ← elf.getSymbolAddress "__user_heap_end"
  .ok { k with
    gUserStackTop := top, gUserStackBottom := bottom, gUserHeapStart := heapStart, gUserHeapEnd := heapEnd }

/-- The flat image at `flatImage` is cleared, and the segments are copied into it. -/
def fillImage (L : Layout) (k : Kernel) (elf : Elf) (elfData flatImage : Nat) : Except Halt (Nat × Kernel) :=
  -- `memset` runs into the kernel's heap, which lies behind free RAM
  if flatImage + elf.imageSize > L.freeRamEnd then .error .undefined
  else do
    let m ← elf.copyLoads L elfData flatImage (memset k.phys.mem flatImage 0 elf.imageSize) elf.loads
    let k ← { k with phys := { k.phys with mem := m } }.readSymbols elf
    .ok (flatImage, k)

/-- `extract_flat_binary_from_elf` up to the process, for the file at `elfData`. -/
def loadFile (L : Layout) (k : Kernel) (elf : Elf) (elfData : Nat) : Except Halt (Nat × Kernel) :=
  if elf.eMagic ≠ elfMagic then .error (.panic "Invalid ELF magic" [])
  else do
    let (flatImage, s) ← k.phys.allocPages L k.owner ((elf.imageSize + 4095) / 4096)
    { k with phys := s }.fillImage L elf elfData flatImage

end Kernel

end RiscvOs
