import RiscvOs.Tar

/-!
# Copies to a user

`copy_to_user` of `user.c` for any page table. The kernel reaches memory through its identity map.
-/

namespace RiscvOs

open ByteMem

namespace Phys

/-- The loop of `copy_to_user` from byte `i` on, with `n` bytes to go. -/
def copyToUserFrom (L : Layout) (s : Phys) (owner pt dstUser srcKernel i : Nat) : Nat → Except Halt (Int × Phys)
  | 0 => .ok (0, s)
  | n + 1 => do
    let pa ← s.walkaddr L owner pt ((dstUser + i) % 2 ^ 64)
    if pa = 0 then .ok (-1, s)
    else
      let m := Function.update s.mem pa (s.mem ((srcKernel + i) % 2 ^ 64))
      { s with mem := m }.copyToUserFrom L owner pt dstUser srcKernel (i + 1) n

/-- `copy_to_user(pt, dst_user, src_kernel, len)`. -/
def copyToUser (L : Layout) (s : Phys) (owner pt dstUser srcKernel len : Nat) : Except Halt (Int × Phys) :=
  s.copyToUserFrom L owner pt dstUser srcKernel 0 len

end Phys

end RiscvOs
