import RiscvOs.Theorems.Isolation
import RiscvOs.Lemmas.Machine

/-!
# Stores of the kernel, as the process sees them

A store through the page table of the current process changes what the process sees at that address, and at no
other one.
-/

namespace RiscvOs

open ByteMem Outcome Kernel

variable {L : Layout} {k k' : Kernel} {F : List Nat} {c : Fin procsMax} {va x : Nat} {b : UInt8} {l : List UInt8}
  {view : Nat → Option UInt8}

/-- What is seen when `l` has been stored at `va`. -/
def overlay (va : Nat) (l : List UInt8) (view : Nat → Option UInt8) (x : Nat) : Option UInt8 :=
  if va ≤ x ∧ x < va + l.length then l[x - va]? else view x

@[simp] theorem overlay_nil : overlay va [] view x = view x := if_neg (by simp)

/-- The first byte, and the others behind it. -/
theorem overlay_cons : overlay va (b :: l) view x =
    overlay (va + 1) l (fun y => if y = va then some b else view y) x := by
  unfold overlay
  rw [List.length_cons]
  by_cases hx : x = va
  · subst hx
    simp
  · by_cases hin : va ≤ x ∧ x < va + (l.length + 1)
    · obtain ⟨n, rfl⟩ : ∃ n, x = va + 1 + n := ⟨x - (va + 1), by omega⟩
      rw [if_pos hin, if_pos ⟨by omega, by omega⟩, show va + 1 + n - va = n + 1 by omega,
        show va + 1 + n - (va + 1) = n by omega, List.getElem?_cons_succ]
    · rw [if_neg hin, if_neg (by omega)]
      exact (if_neg hx).symm

namespace Kernel.Running

theorem storeU8_view (h : Running L k F c) (hva : va < kernelBase) (hs : k.storeU8 L va b = .ok k')
    (hx : x < kernelBase) : userView k'.phys.mem (k'.procs c).pageTable x =
      if x = va then some b else userView k.phys.mem (k.procs c).pageTable x := by
  have hw := storeU8_spec h.toInv h.live h.pageTable h.active hva hs
  have hleaf := hw.leafAt h.toInv h.live h.pageTable h.live h.pageTable
  unfold storeU8 at hs
  rw [Nat.mod_eq_of_lt (show va < 2 ^ 64 by unfold kernelBase at hva; omega), h.active] at hs
  split at hs
  · rename_i pa htr
    obtain ⟨pg, hf, rfl⟩ := h.spaceMap.translate hva htr
    obtain ⟨_, hs⟩ := ite_error_eq_ok.mp hs
    rw [hw.procs, userView, userAddr, hleaf]
    rw [← Except.ok.inj hs]
    by_cases he : x = va
    · subst he
      rw [hf, if_pos rfl]
      simp
    · rw [if_neg he, userView, userAddr]
      cases hx' : userFrame (leafAt k.phys.mem (k.procs c).pageTable (vpn x)) with
      | none => rfl
      | some pg' =>
          refine congrArg some (Function.update_of_ne (fun hpa => he ?_) _ _)
          -- two addresses of one byte of one frame are the same
          have h1 := (h.spaceOk.page pg (inSpace_of_frame hf)).1.aligned
          have h2 := (h.spaceOk.page pg' (inSpace_of_frame hx')).1.aligned
          have hpa' : pg' + x % 4096 = pg + va % 4096 := hpa
          obtain rfl : pg' = pg := by omega
          have hvpn := vpn_eq_iff.mp (h.spaceOk.frame_inj hx' hf)
          unfold kernelBase at hva hx
          omega
  · cases hs

theorem storeBytes_view (h : Running L k F c) (hva : va + l.length ≤ kernelBase) (hs : k.storeBytes L va l = .ok k')
    (hx : x < kernelBase) : userView k'.phys.mem (k'.procs c).pageTable x =
      overlay va l (userView k.phys.mem (k.procs c).pageTable) x := by
  induction l generalizing k va with
  | nil =>
      rw [storeBytes, Except.ok.injEq] at hs
      rw [hs, overlay_nil]
  | cons b l ih =>
      simp only [storeBytes, bind_eq_ok] at hs
      obtain ⟨k₁, h1, h2⟩ := hs
      rw [List.length_cons] at hva
      have hw := storeU8_spec h.toInv h.live h.pageTable h.active (by omega) h1
      rw [ih (h.userWrites hw) (by omega) h2, overlay_cons]
      unfold overlay
      rw [h.storeU8_view (by omega) h1 hx]

end Kernel.Running

end RiscvOs
