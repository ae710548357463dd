import RiscvOs.Supervisor

/-!
# The heap of a process

`malloc.c` of the user library: blocks from `sbrk`, and a list of the ones that are free, the last one freed
in front. The first block of the list that is large enough is taken, and what is left over of it, if anything,
takes its place in the list.
-/

namespace RiscvOs

open ByteMem

/-- `BLOCK_SIZE` of the user library: `size` and `next`. -/
def userBlockSize : Nat := 16

/-- The memory as the process sees it, and the variable `free_list` of `malloc.c`. -/
structure UserHeap where
  mem : Mem
  freeList : Nat := 0

/-- `malloc` returns, or it calls `sbrk`. -/
inductive MallocResult
  | block (p : Nat) (h : UserHeap)
  | sbrk (increment : Int)

namespace UserHeap

variable (h : UserHeap) (b : Nat)

def size : Nat := load64 h.mem b
def next : Nat := load64 h.mem (b + 8)

def setSize (v : Nat) : UserHeap := { h with mem := store64 h.mem b v }
def setNext (v : Nat) : UserHeap := { h with mem := store64 h.mem (b + 8) v }

/-- `prev->next = v`, or `free_list = v` where there is no `prev`. -/
def setLink (prev v : Nat) : UserHeap := if prev ≠ 0 then h.setNext prev v else { h with freeList := v }

/-- The loop of `malloc`: the first block that is large enough, behind the one before it. -/
def search (size : Nat) : Nat → Nat → Nat → Except Halt (Option (Nat × Nat))
  | 0, _, _ => .error .spin
  | fuel + 1, prev, curr =>
    if curr = 0 then .ok none
    else if h.size curr ≥ size then .ok (some (prev, curr))
    else search size fuel curr (h.next curr)

/-- The block `curr` leaves the list: it is cut, or used whole. -/
def take (size prev curr : Nat) : UserHeap :=
  if h.size curr ≥ (size + userBlockSize + 8) % 2 ^ 64 then
    let newBlock := (curr + userBlockSize + size) % 2 ^ 64
    let h := h.setSize newBlock (h.size curr + (2 ^ 64 - size) + (2 ^ 64 - userBlockSize))
    let h := h.setNext newBlock (h.next curr)
    let h := h.setSize curr size
    h.setLink prev newBlock
  else h.setLink prev (h.next curr)

/-- `malloc` up to its call of `sbrk`. A list that ends has no more nodes than there are addresses. -/
def malloc (n : Nat) : Except Halt MallocResult := do
  let size := align8 n
  match ← h.search size (2 ^ 64 + 1) 0 h.freeList with
  | some (prev, curr) => .ok (.block ((curr + userBlockSize) % 2 ^ 64) (h.take size prev curr))
  | none => .ok (.sbrk (BitVec.ofNat 64 (size + userBlockSize)).toInt)

/-- `malloc` behind that call, which has returned `ptr`. -/
def extend (n ptr : Nat) : Nat × UserHeap :=
  if ptr = 2 ^ 64 - 1 then (0, h) else ((ptr + userBlockSize) % 2 ^ 64, h.setSize ptr (align8 n))

/-- `free`. -/
def release (ptr : Nat) : UserHeap :=
  if ptr = 0 then h
  else
    let blk := (ptr + (2 ^ 64 - userBlockSize)) % 2 ^ 64
    { h.setNext blk h.freeList with freeList := blk }

end UserHeap

end RiscvOs
