import RiscvOs.Lifecycle

/-!
# The heap of the kernel

`heap.c`: a list of blocks in the order of their addresses. A free block is split when it is larger than
what is asked for, and a block that is freed takes the block behind it in when that one is free too.
-/

namespace RiscvOs

open ByteMem

/-- `sizeof(Block)`: `size`, `next`, and `free` with its padding. -/
def blockSize : Nat := 24

/-- `ALIGN8` on 64 bits. -/
def align8 (x : Nat) : Nat := (x + 7) % 2 ^ 64 / 8 * 8

/-- An `int` that is not 0. -/
def intFlag (m : Mem) (a : Nat) : Bool := (List.range 4).any fun j => m (a + j) != 0

def storeInt (m : Mem) (a v : Nat) : Mem := write m a 4 (byteOf v)

/-- Memory, and the variable `free_list` of `heap.c`. -/
structure Heap where
  mem : Mem
  freeList : Nat

namespace Heap

variable (h : Heap) (b : Nat)

def size : Nat := load64 h.mem b
def next : Nat := load64 h.mem (b + 8)
def free : Bool := intFlag h.mem (b + 16)

def setSize (v : Nat) : Heap := { h with mem := store64 h.mem b v }
def setNext (v : Nat) : Heap := { h with mem := store64 h.mem (b + 8) v }
def setFree (v : Nat) : Heap := { h with mem := storeInt h.mem (b + 16) v }

/-- `heap_init`. -/
def heapInit (L : Layout) : Heap :=
  let start := L.freeRamEnd
  ((({ h with freeList := start }.setSize start (L.heapEnd - start - blockSize)).setNext start 0).setFree start 1)

/-- The loop of `malloc` from the block `curr` on: the first free block that is large enough, or NULL. -/
def findBlock (size : Nat) : Nat → Nat → Except Halt Nat
  | 0, _ => .error .spin
  | fuel + 1, curr =>
    if curr = 0 then .ok 0
    else if h.free curr && h.size curr ≥ size then .ok curr
    else findBlock size fuel (h.next curr)

/-- The block `curr` keeps `size` bytes, and the rest becomes a block of its own. -/
def splitBlock (curr size : Nat) : Heap :=
  let newBlock := (curr + blockSize + size) % 2 ^ 64
  let h := h.setSize newBlock (h.size curr + (2 ^ 64 - size) + (2 ^ 64 - blockSize))
  let h := h.setFree newBlock 1
  let h := h.setNext newBlock (h.next curr)
  let h := h.setSize curr size
  h.setNext curr newBlock

/-- As many blocks fit into the heap. -/
def maxBlocks (L : Layout) : Nat := (L.heapEnd - L.freeRamEnd) / blockSize

/-- `malloc`, with the address that it returns. -/
def malloc (L : Layout) (n : Nat) : Except Halt (Nat × Heap) := do
  let size := align8 n
  let curr ← h.findBlock size (maxBlocks L + 1) h.freeList
  if curr = 0 then .ok (0, h)
  else
    let h := if h.size curr ≥ (size + blockSize + 8) % 2 ^ 64 then h.splitBlock curr size else h
    .ok (curr + blockSize, h.setFree curr 0)

/-- The block takes the next one in. -/
def coalesce : Heap :=
  let h := h.setSize b (h.size b + (blockSize + h.size (h.next b)))
  h.setNext b (h.next (h.next b))

/-- `free`. -/
def release (ptr : Nat) : Heap :=
  if ptr = 0 then h
  else
    let block := (ptr + (2 ^ 64 - blockSize)) % 2 ^ 64
    let h := h.setFree block 1
    if h.next block ≠ 0 && h.free (h.next block) then h.coalesce block else h

end Heap

end RiscvOs
