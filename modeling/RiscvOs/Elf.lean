import RiscvOs.Page

/-!
# Programs

`elf-loader.c`: the parts of an ELF file that the loader reads, and the flat image it makes of them. The
headers are given decoded; `data` is the file itself.
-/

namespace RiscvOs

open ByteMem

/-- `Elf64_Phdr`. -/
structure Phdr where
  pType : Nat
  pOffset : Nat
  pVaddr : Nat
  pFilesz : Nat
  pMemsz : Nat
  deriving Repr, DecidableEq

structure Elf where
  eMagic : Nat
  phdrs : List Phdr
  /-- `.symtab` with the names of `.strtab`; `none` when one of the sections is missing -/
  symtab : Option (List (String × Nat))
  data : Nat → UInt8

/-- `ELF_MAGIC`. -/
def elfMagic : Nat := 0x464C457F

/-- `PT_LOAD`. -/
def ptLoad : Nat := 1

/-- The files of the initial RAM disk with their names, up to the end mark. -/
abbrev Initramfs := List (List UInt8 × Elf)

namespace Elf

/-- `get_symbol_address`. -/
def getSymbolAddress (elf : Elf) (name : String) : Except Halt Nat :=
  match elf.symtab with
  | none => .error (.panic "Missing .symtab or .strtab" [])
  | some symbols =>
    match symbols.find? fun s => s.1 == name with
    | some s => .ok s.2
    | none => .error (.panic "Symbol not found" [])

def loads (elf : Elf) : List Phdr := elf.phdrs.filter fun p => p.pType == ptLoad

/-- The lowest address of a segment, rounded down. -/
def minVaddr (elf : Elf) : Nat :=
  (elf.loads.foldl (fun a p => min a p.pVaddr) (2 ^ 64 - 1)) / 4096 * 4096

/-- The end of the highest segment, rounded up. -/
def maxVaddr (elf : Elf) : Nat :=
  pgRoundUp (elf.loads.foldl (fun a p => max a ((p.pVaddr + p.pMemsz) % 2 ^ 64)) 0)

/-- `image_size`. -/
def imageSize (elf : Elf) : Nat := (elf.maxVaddr + (2 ^ 64 - elf.minVaddr)) % 2 ^ 64

/-- The loop that copies the segments into the flat image. -/
def copySegments (elf : Elf) (m : Mem) (flatImage : Nat) : Mem :=
  elf.loads.foldl
    (fun m p => write m ((flatImage + (p.pVaddr + (2 ^ 64 - elf.minVaddr))) % 2 ^ 64) p.pFilesz
      fun k => elf.data (p.pOffset + k))
    m

/-- A program as `user.ld` links it: its symbols, and segments between `USER_BASE` and the heap. -/
structure Linked (elf : Elf) : Prop where
  magic : elf.eMagic = elfMagic
  stackTop : elf.getSymbolAddress "__user_stack_top" = .ok 0x1020000
  stackBottom : elf.getSymbolAddress "__user_stack_bottom" = .ok 0x1010000
  heapStart : elf.getSymbolAddress "__user_heap_start" = .ok 0x3000000
  heapEnd : elf.getSymbolAddress "__user_heap_end" = .ok 0x3020000
  nonempty : ∃ p ∈ elf.loads, 0 < p.pMemsz
  segments : ∀ p ∈ elf.loads, userBase ≤ p.pVaddr ∧ p.pVaddr + p.pMemsz ≤ 0x1800000 ∧
    p.pFilesz ≤ p.pMemsz

end Elf

end RiscvOs
