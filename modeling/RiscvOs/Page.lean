import RiscvOs.Lib.ByteMem
import RiscvOs.Layout

/-!
# Physical pages and page tables

`page.c`, `page.h` and `alloc-tracker.c`: the page allocator (a free list threaded through the freed
pages and a bump pointer), the table of tracked allocations, and the Sv39 page tables. A function that
may stop the kernel returns `Except Halt`.
-/

namespace RiscvOs

open ByteMem

/-- Why the kernel makes no further step. -/
inductive Halt
  /-- `PANIC` with its format string and arguments -/
  | panic (fmt : String) (args : List Nat)
  /-- a load or store of the kernel faults at `va`; `trap_handler` then panics -/
  | fault (va : Nat)
  /-- a loop with interrupts off that no event ends -/
  | spin
  /-- `free_pagetable` takes the bytes of a frame for a table -/
  | badTable
  /-- C gives the step no meaning: an array on the kernel stack is overrun, or a store through a pointer of a
  process hits the code or the variables of the kernel -/
  | undefined
  deriving Repr, DecidableEq

def pteV : Nat := 1
def pteR : Nat := 2
def pteW : Nat := 4
def pteX : Nat := 8
def pteU : Nat := 16

/-- `PX(level, va)`. -/
def px (level va : Nat) : Fin 512 :=
  ⟨(va >>> (12 + 9 * level)) &&& 0x1FF, by
    have := @Nat.and_le_right (va >>> (12 + 9 * level)) 0x1FF
    omega⟩

/-- `PTE2PA(pte)`, in 64 bits. -/
def pte2pa (pte : Nat) : Nat := (pte >>> 10) <<< 12 % 2 ^ 64

/-- The entry `((pa >> 12) << 10) | flags`. -/
def pa2pte (pa flags : Nat) : Nat := (pa >>> 12) <<< 10 ||| flags

/-- Does the entry have one of the bits of `mask`? -/
def pteHas (pte mask : Nat) : Bool := pte &&& mask != 0

/-- `pt[i]`. -/
def pteAt (m : Mem) (pt : Nat) (i : Fin 512) : Nat := load64 m (pt + 8 * i)

/-- `pt[i] = pte`. -/
def setPte (m : Mem) (pt : Nat) (i : Fin 512) (pte : Nat) : Mem := store64 m (pt + 8 * i) pte

/-! ## Tracked allocations -/

/-- `MAX_TRACKED_ALLOCS`. -/
def maxTrackedAllocs : Nat := 8192

/-- `alloc_track_t`. -/
structure AllocTrack where
  used : Bool := false
  pa : Nat := 0
  npages : Nat := 0
  owner : Nat := 0
  deriving Repr, DecidableEq

/-- Physical memory with the state of `page.c` and `alloc-tracker.c`. -/
structure Phys where
  mem : Mem
  freeList : Nat
  nextPaddr : Nat
  gFreePages : Nat
  allocTable : Fin maxTrackedAllocs → AllocTrack
  allocTableCount : Nat

/-- `x++` and `x--` on a 64-bit counter. -/
def inc64 (x : Nat) : Nat := (x + 1) % 2 ^ 64

def dec64 (x : Nat) : Nat := (x + (2 ^ 64 - 1)) % 2 ^ 64

namespace Phys

/-- The first entry of the table with `P`. -/
def findTrack (s : Phys) (P : AllocTrack → Bool) : Option (Fin maxTrackedAllocs) :=
  (List.finRange maxTrackedAllocs).find? fun i => P (s.allocTable i)

def trackAlloc (s : Phys) (pa npages owner : Nat) : Phys :=
  match s.findTrack fun e => !e.used with
  | none => s
  | some i =>
      { s with
        allocTable := Function.update s.allocTable i { used := true, pa, npages, owner }
        allocTableCount := inc64 s.allocTableCount }

def trackFree (s : Phys) (pa npages : Nat) : Phys :=
  match s.findTrack fun e => e.used && e.pa == pa && e.npages == npages with
  | none => s
  | some i =>
      { s with
        allocTable := Function.update s.allocTable i { s.allocTable i with used := false }
        allocTableCount := dec64 s.allocTableCount }

/-! ## The page allocator -/

def allocFreeList (s : Phys) : Nat × Phys :=
  if s.freeList = 0 then (0, s)
  else
    (s.freeList,
      { s with freeList := load64 s.mem s.freeList, gFreePages := dec64 s.gFreePages })

/-- `alloc_pages(n)`, called while the pid of `current_proc` (0 without one) is `owner`. -/
def allocPages (L : Layout) (s : Phys) (owner n : Nat) : Except Halt (Nat × Phys) :=
  if n = 1 then
    let (pa, s₁) := s.allocFreeList
    if pa ≠ 0 then
      .ok (pa, { s₁ with mem := memset s₁.mem pa 0 4096 }.trackAlloc pa 1 owner)
    else
      let pa := s₁.nextPaddr
      let next := (s₁.nextPaddr + 4096) % 2 ^ 64
      if next > L.freeRamEnd then .error (.panic "out of memory" [])
      else
        .ok (pa,
          { s₁ with nextPaddr := next, mem := memset s₁.mem pa 0 4096 }.trackAlloc pa 1 owner)
  else
    let pa := s.nextPaddr
    let next := (s.nextPaddr + n * 4096) % 2 ^ 64
    if next > L.freeRamEnd then .error (.panic "out of memory" [])
    else
      -- a block of several pages is tracked as its first page
      .ok (pa,
        { s with mem := memset s.mem pa 0 (n * 4096 % 2 ^ 64), nextPaddr := next }.trackAlloc
          pa 1 owner)

def freePage (s : Phys) (pa : Nat) : Phys :=
  let s := s.trackFree pa 1
  { s with mem := store64 s.mem pa s.freeList, freeList := pa, gFreePages := inc64 s.gFreePages }

/-- The loop of `free_pages_range` from page `i` on, with `k` pages to go. -/
def freePagesFrom (s : Phys) (pa i : Nat) : Nat → Phys
  | 0 => s
  | k + 1 => ((s.trackFree pa 1).freePage ((pa + i * 4096) % 2 ^ 64)).freePagesFrom pa (i + 1) k

/-- The loop of `free_all_tracked_for_pid` over the pages of one entry. -/
def freeEach (s : Phys) (pa i : Nat) : Nat → Phys
  | 0 => s
  | k + 1 => (s.freePage ((pa + i * 4096) % 2 ^ 64)).freeEach pa (i + 1) k

/-- One round of the outer loop of `free_all_tracked_for_pid`. -/
def freeTracked (pid : Nat) (s : Phys) (i : Fin maxTrackedAllocs) : Phys :=
  let e := s.allocTable i
  if e.used && e.owner == pid then
    let s := s.freeEach e.pa 0 e.npages
    { s with
      allocTable := Function.update s.allocTable i {}
      allocTableCount := dec64 s.allocTableCount }
  else s

def freeAllTrackedForPid (s : Phys) (pid : Nat) : Phys :=
  (List.finRange maxTrackedAllocs).foldl (freeTracked pid) s

def freePagesRange (s : Phys) (pa npages : Nat) : Phys := s.freePagesFrom pa 0 npages

/-! ## Page tables -/

/-- One level of `map_page`: the next table, allocated when the entry is not valid. -/
def nextTable (L : Layout) (s : Phys) (owner pt : Nat) (i : Fin 512) : Except Halt (Nat × Phys) :=
  if pteHas (pteAt s.mem pt i) pteV then .ok (pte2pa (pteAt s.mem pt i), s)
  else do
    let (page, s) ← s.allocPages L owner 1
    let s := { s with mem := memset s.mem page 0 4096 }
    let s := { s with mem := setPte s.mem pt i (pa2pte page pteV) }
    .ok (pte2pa (pteAt s.mem pt i), s)

def mapPage (L : Layout) (s : Phys) (owner root va pa flags : Nat) : Except Halt Phys :=
  if va % 4096 ≠ 0 then .error (.panic "unaligned va: 0x%lx" [va])
  else if pa % 4096 ≠ 0 then .error (.panic "unaligned pa: 0x%lx" [pa])
  else do
    let (l1, s) ← s.nextTable L owner root (px 2 va)
    let (l0, s) ← s.nextTable L owner l1 (px 1 va)
    .ok { s with mem := setPte s.mem l0 (px 0 va) (pa2pte pa flags ||| pteV) }

def unmapPage (s : Phys) (root va : Nat) : Except Halt Phys :=
  if va % 4096 ≠ 0 then .error (.panic "unaligned va: 0x%lx" [va])
  else
    let l2e := pteAt s.mem root (px 2 va)
    if !pteHas l2e pteV then .ok s
    else
      let l1e := pteAt s.mem (pte2pa l2e) (px 1 va)
      if !pteHas l1e pteV then .ok s
      else .ok { s with mem := setPte s.mem (pte2pa l1e) (px 0 va) 0 }

/-- The loop of `map_mmio_range` and of the identity maps: `k` pages from `va` on go to the pages
from `pa` on. -/
def mapRange (L : Layout) (s : Phys) (owner root va pa flags : Nat) : Nat → Except Halt Phys
  | 0 => .ok s
  | k + 1 => do
    let s ← s.mapPage L owner root va pa flags
    s.mapRange L owner root (va + 4096) (pa + 4096) flags k

/-- One round of the loop of `free_pagetable`: entry `i` of a table. `sub` frees the table below it, and
`leaf` says whether the level is 0. -/
def freeEntry (sub : Phys → Nat → Except Halt Phys) (leaf : Bool) (pt : Nat) (s : Phys) (i : Fin 512) :
    Except Halt Phys :=
  let e := pteAt s.mem pt i
  if !pteHas e pteV then .ok s
  else do
    let s ←
      if pteHas e (pteR ||| pteW ||| pteX) && leaf then
        -- of the frames, only those of the user go back to the allocator
        .ok (if pteHas e pteU then s.freePage (pte2pa e) else s)
      else do
        let s ← sub s (pte2pa e)
        .ok (s.freePage (pte2pa e))
    .ok { s with mem := setPte s.mem pt i 0 }

/-- `free_pagetable(pt, lvl)`. -/
def freePagetable : Nat → Phys → Nat → Except Halt Phys
  | 0, s, pt =>
    -- an entry of level 0 without R, W and X sends the recursion into the bytes of a frame
    (List.finRange 512).foldlM (freeEntry (fun _ _ => .error .badTable) true pt) s
  | lvl + 1, s, pt => (List.finRange 512).foldlM (freeEntry (freePagetable lvl) false pt) s

/-- One level of `walk`; `none` where it returns NULL. -/
def walkLevel (L : Layout) (s : Phys) (owner pt : Nat) (i : Fin 512) (alloc : Bool) :
    Except Halt (Option Nat × Phys) :=
  if pteHas (pteAt s.mem pt i) pteV then .ok (some (pte2pa (pteAt s.mem pt i)), s)
  else if !alloc then .ok (none, s)
  else do
    let (page, s) ← s.allocPages L owner 1
    let s := { s with mem := memset s.mem page 0 4096 }
    .ok (some page, { s with mem := setPte s.mem pt i (pa2pte page pteV) })

/-- `walk(pagetable, va, alloc)`: the address of the leaf entry, or NULL. -/
def walk (L : Layout) (s : Phys) (owner pt va : Nat) (alloc : Bool) : Except Halt (Nat × Phys) :=
  if va ≥ 2 ^ 39 then .error (.panic "walk: virtual address too high" [])
  else do
    match ← s.walkLevel L owner pt (px 2 va) alloc with
    | (none, s) => .ok (0, s)
    | (some l1, s) =>
      match ← s.walkLevel L owner l1 (px 1 va) alloc with
      | (none, s) => .ok (0, s)
      | (some l0, s) => .ok (l0 + 8 * px 0 va, s)

/-- `walk_page(pagetable, va)`. -/
def walkPage (m : Mem) (pt va : Nat) : Nat :=
  let l2e := pteAt m pt (px 2 va)
  if !pteHas l2e pteV then 0
  else
    let l1e := pteAt m (pte2pa l2e) (px 1 va)
    if !pteHas l1e pteV then 0
    else
      let pte := pteAt m (pte2pa l1e) (px 0 va)
      if !pteHas pte pteV then 0 else pte2pa pte

/-- The leaf entry that three nested lookups find, 0 when a table on the way is missing. -/
def leafPte (m : Mem) (root va : Nat) : Nat :=
  let l2e := pteAt m root (px 2 va)
  if !pteHas l2e pteV then 0
  else
    let l1e := pteAt m (pte2pa l2e) (px 1 va)
    if !pteHas l1e pteV then 0 else pteAt m (pte2pa l1e) (px 0 va)

/-- The physical address behind `va` for an access of the kernel that needs the right `mask`, with
SUM set. Sv39 refuses an address whose upper bits are not copies of bit 38. -/
def translate (m : Mem) (root va mask : Nat) : Option Nat :=
  let pte := leafPte m root va
  if (va < 2 ^ 38 || 2 ^ 64 - 2 ^ 38 ≤ va) && pteHas pte pteV && pteHas pte mask then
    some (pte2pa pte + va % 4096)
  else none

/-- `walkaddr(pagetable, va)`. -/
def walkaddr (L : Layout) (s : Phys) (owner pt va : Nat) : Except Halt Nat :=
  if va ≥ kernelBase then .ok 0
  else do
    let (p, _) ← s.walk L owner pt va false
    if p = 0 then .ok 0
    else
      let pte := load64 s.mem p
      if !pteHas pte pteV then .ok 0
      else if !pteHas pte (pteR ||| pteW ||| pteX) then .ok 0
      else .ok ((pte2pa pte + (va &&& 0xFFF)) % 2 ^ 64)

/-! ## Loops that map fresh pages -/

/-- A fresh page with a copy of the `n` bytes at `src`, mapped at `va`. -/
def mapCopy (L : Layout) (s : Phys) (owner root va flags src n : Nat) : Except Halt Phys := do
  let (page, s) ← s.allocPages L owner 1
  { s with mem := memcpy s.mem page src n }.mapPage L owner root va page flags

/-- `k` rounds of a loop over pages from `va` on. `src` says what a page is a copy of; the pages without
a source are left out. -/
def mapLoop (L : Layout) (s : Phys) (owner root flags : Nat) (src : Mem → Nat → Option (Nat × Nat))
    (va : Nat) : Nat → Except Halt Phys
  | 0 => .ok s
  | k + 1 => do
    let s ← match src s.mem va with
      | none => .ok s
      | some (a, n) => s.mapCopy L owner root va flags a n
    s.mapLoop L owner root flags src (va + 4096) k

/-- The rounds of `for (va = start; va < stop; va += PAGE_SIZE)`. Where `va` wraps before it reaches `stop`
the loop does not end: there are more rounds than pages of memory. -/
def pagesUpTo (start stop : Nat) : Nat :=
  if stop > 2 ^ 64 - 4096 then 2 ^ 52 else (stop - start + 4095) / 4096

end Phys

/-- `PGROUNDUP(x)`, in 64 bits. -/
def pgRoundUp (x : Nat) : Nat := (x + 4095) % 2 ^ 64 / 4096 * 4096

end RiscvOs
