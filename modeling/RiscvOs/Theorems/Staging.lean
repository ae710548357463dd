import RiscvOs.Theorems.Image
import RiscvOs.Staging

/-!
# The number of arguments

`sys_exec` takes the number of arguments as the process gives it. For which numbers its indices lie in its buffers.
-/

namespace RiscvOs

open ByteMem Outcome

variable {L : Layout} {fs : Initramfs} {k k' : Kernel} {elf : Elf} {buf : List UInt8} {progname argvBuf argv sp i j n : Nat}
  {argc : Int}

namespace Kernel

/-! ## The indices -/

/-- Where the loops end without a fault, they have used them all. -/
theorem filledRows_of_ok (h : k.copyArgs argvBuf argv i n = .ok k') : k.filledRows argvBuf argv i n = List.range' i n := by
  induction n generalizing k i with
  | zero => rfl
  | succ n ih =>
      simp only [copyArgs, bind_eq_ok] at h
      obtain ⟨ptr, hptr, s, hs, h⟩ := h
      simp only [filledRows, hptr, hs, ih h, List.range'_succ]

theorem indices_of_ok {sp' : Nat} {ptrs ptrs' : List Nat} (h : k.pushArgs L argvBuf n sp ptrs = .ok (sp', ptrs', k')) :
    k.readRows L argvBuf n sp = (List.range n).reverse ∧ k.setPtrs L argvBuf n sp = (List.range n).reverse := by
  induction n generalizing k sp ptrs with
  | zero => exact ⟨rfl, rfl⟩
  | succ n ih =>
      simp only [pushArgs, ite_error_eq_ok, bind_eq_ok] at h
      obtain ⟨hsp, k₁, hstore, h⟩ := h
      obtain ⟨h1, h2⟩ := ih h
      rw [readRows, setPtrs, if_neg hsp, if_neg hsp, hstore, List.range_succ, List.reverse_append]
      exact ⟨congrArg _ h1, congrArg _ h2⟩

theorem mem_filledRows (h : j ∈ k.filledRows argvBuf argv i n) : j < i + n := by
  induction n generalizing k i with
  | zero => cases h
  | succ n ih =>
      rw [filledRows] at h
      split at h
      · cases h
      · rcases List.mem_cons.mp h with rfl | h
        · omega
        · split at h
          · cases h
          · have := ih h
            omega

theorem mem_readRows (h : j ∈ k.readRows L argvBuf n sp) : j < n := by
  induction n generalizing k sp with
  | zero => cases h
  | succ n ih =>
      rw [readRows] at h
      rcases List.mem_cons.mp h with rfl | h
      · exact Nat.lt_succ_self _
      · split at h
        · cases h
        · split at h
          · cases h
          · exact Nat.lt_succ_of_lt (ih h)

theorem mem_setPtrs (h : j ∈ k.setPtrs L argvBuf n sp) : j < n := by
  induction n generalizing k sp with
  | zero => cases h
  | succ n ih =>
      rw [setPtrs] at h
      split at h
      · cases h
      · split at h
        · cases h
        · rcases List.mem_cons.mp h with rfl | h
          · exact Nat.lt_succ_self _
          · exact Nat.lt_succ_of_lt (ih h)

theorem mem_allPtrs (h : j ∈ k.allPtrs L argvBuf n) : j ≤ n := by
  rw [allPtrs] at h
  rcases List.mem_append.mp h with h | h
  · exact Nat.le_of_lt (mem_setPtrs h)
  · split at h
    · cases h
    · exact Nat.le_of_eq (List.mem_singleton.mp h)

theorem mem_execRows (h : j ∈ k.execRows L argv argc) : j < argc.toNat := by
  unfold execRows at h
  split at h
  · cases h
  · have := mem_filledRows h
    omega

/-- A call for `argc` arguments uses no others. -/
theorem execIndices_lt :
    (∀ i ∈ (k.execIndices L elf buf argv argc).1, i < argc.toNat) ∧
      ∀ i ∈ (k.execIndices L elf buf argv argc).2, i ≤ argc.toNat := by
  unfold execIndices
  split
  · split
    · exact ⟨fun i hi => mem_execRows hi, by simp⟩
    · exact ⟨fun i hi => (List.mem_append.mp hi).elim mem_execRows mem_readRows, fun i hi => mem_allPtrs hi⟩
  · exact ⟨by simp, by simp⟩

theorem sysExecIndices_lt :
    (∀ i ∈ (k.sysExecIndices L fs progname argv argc).1, i < argc.toNat) ∧
      ∀ i ∈ (k.sysExecIndices L fs progname argv argc).2, i ≤ argc.toNat := by
  unfold sysExecIndices
  split
  · exact execIndices_lt
  · exact ⟨by simp, by simp⟩

/-- Where `sys_exec` comes to a program, its result is that of `execElf`. -/
theorem execElf_of_load : k.execElf L elf buf argv argc = (do
    let (argvBuf, ep, k) ← k.execLoad L elf buf argv argc
    let (sp, argvPtr, k) ← k.pushArgv L argvBuf argc
    let k := k.execFrame L ep argvBuf sp
    let (k, switched) := (k.setProc k.cur { k.procs k.cur with argc := argc, argvPtr := argvPtr }).yield L
    .ok (if switched then .switched else .value 0, k)) := by
  unfold execElf execLoad
  simp only [bind_assoc, ok_bind]

end Kernel

/-- What `sys_exec` is to do with any number of arguments: its indices lie in its buffers, and a number above
MAX_ARGS makes the call fail and changes nothing. -/
structure ArgsInBounds (L : Layout) (fs : Initramfs) (k : Kernel) (progname argv : Nat) (argc : Int) : Prop where
  rows : ∀ i ∈ (k.sysExecIndices L fs progname argv argc).1, i < argvRows
  ptrs : ∀ i ∈ (k.sysExecIndices L fs progname argv argc).2, i < maxArgs + 1
  refused : maxArgs < argc → k.sysExec L fs progname argv argc = .ok (.value (neg64 1), k)

end RiscvOs
