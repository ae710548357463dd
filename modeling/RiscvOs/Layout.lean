import Mathlib

/-!
# Addresses

The linker symbols of `kernel.ld`, the constants of `memlayout.h` and the layout of `struct process`.
The places of `__free_ram` and of the array `procs` depend on the size of the kernel image; a `Layout`
fixes them, with what `kernel.ld` promises about them.
-/

namespace RiscvOs

/-- `__kernel_base`. -/
def kernelBase : Nat := 0x80200000

/-- `USER_BASE`. -/
def userBase : Nat := 0x1000000

/-- `PROCS_MAX`. -/
abbrev procsMax : Nat := 8

instance procsMax.neZero : NeZero procsMax := ⟨by decide⟩

/-- `sizeof(struct process)`. -/
def procSize : Nat := 8640

/-- The place of `tf_stack` inside `struct process`. -/
def tfStackStart : Nat := 80

def tfStackEnd : Nat := 8272

/-- `sizeof(trap_frame_t)`. -/
def frameSize : Nat := 256

structure Layout where
  /-- `__free_ram` -/
  freeRam : Nat
  /-- the address of `procs[0]` -/
  procs : Nat
  /-- the addresses of the functions `user_entry` and `user_return` -/
  userEntry : Nat
  userReturn : Nat
  freeRam_aligned : freeRam % 4096 = 0
  procs_ge : kernelBase ≤ procs
  procs_le : procs + procsMax * procSize ≤ freeRam
  /-- free RAM and the kernel heap behind it lie in the machine's memory -/
  ram_le : freeRam + 0x6000000 ≤ 0xA0000000

namespace Layout

variable (L : Layout)

/-- `__free_ram_end`. -/
def freeRamEnd : Nat := L.freeRam + 0x4000000

/-- `__heap_end`. -/
def heapEnd : Nat := L.freeRamEnd + 0x2000000

/-- `&procs[i]`. -/
def procAddr (i : Fin procsMax) : Nat := L.procs + procSize * i

/-- `procs[i].tf_stack + sizeof(procs[i].tf_stack)`. -/
def tfTop (i : Fin procsMax) : Nat := L.procAddr i + tfStackEnd

/-- The trap frame at the top of `procs[i].tf_stack`. -/
def tfStackFrame (i : Fin procsMax) : Nat := L.tfTop i - frameSize

theorem kernelBase_lt_freeRam : kernelBase < L.freeRam := by
  have := L.procs_ge
  have := L.procs_le
  simp only [procsMax, procSize] at this
  omega

theorem freeRam_lt_end : L.freeRam < L.freeRamEnd := by
  unfold freeRamEnd
  omega

theorem freeRamEnd_lt : L.freeRamEnd < 0xA0000000 := by
  have := L.ram_le
  unfold freeRamEnd
  omega

theorem freeRamEnd_aligned : L.freeRamEnd % 4096 = 0 := by
  have := L.freeRam_aligned
  unfold freeRamEnd
  omega

/-- The trap frames on the kernel stacks lie below free RAM. -/
theorem tfTop_le (i : Fin procsMax) : L.tfTop i ≤ L.freeRam := by
  have := L.procs_le
  have := i.isLt
  simp only [tfTop, procAddr, procsMax, procSize, tfStackEnd] at *
  omega

theorem tfStackFrame_ge (i : Fin procsMax) : kernelBase ≤ L.tfStackFrame i := by
  have := L.procs_ge
  simp only [tfStackFrame, tfTop, procAddr, procSize, tfStackEnd, frameSize]
  omega

/-- The layout of the kernel in `bin/kernel.map`. -/
def kernelMap : Layout where
  freeRam := 0x804cb000
  procs := 0x8044a168
  userEntry := 0x80203412
  userReturn := 0x8020342a
  freeRam_aligned := rfl
  procs_ge := by decide
  procs_le := by decide
  ram_le := by decide

end Layout

end RiscvOs
