import RiscvOs.Lemmas.Stores
import RiscvOs.Theorems.Copy
import RiscvOs.Theorems.KernelMap

/-!
# Accesses that succeed

What the kernel reads and writes for a process, where the process has the memory that it names.
-/

namespace RiscvOs

open ByteMem Outcome Kernel

variable {L : Layout} {fs : Initramfs} {k k' : Kernel} {F : List Nat} {c : Fin procsMax} {va n x : Nat} {b : UInt8}
  {bs name : List UInt8}

namespace Kernel

/-- The process sees the `n` bytes from `va` on. -/
def Sees (k : Kernel) (c : Fin procsMax) (va n : Nat) : Prop :=
  va + n ≤ kernelBase ∧ ∀ j < n, (userView k.phys.mem (k.procs c).pageTable (va + j)).isSome

/-- It sees a string at `va`, with the 0 behind it. -/
def SeesString (k : Kernel) (c : Fin procsMax) (va : Nat) : Prop :=
  ∃ n, k.Sees c va (n + 1) ∧ userView k.phys.mem (k.procs c).pageTable (va + n) = some 0

theorem Sees.head (h : k.Sees c va (n + 1)) :
    va < kernelBase ∧ ∃ b, userView k.phys.mem (k.procs c).pageTable va = some b :=
  ⟨by have := h.1; omega, Option.isSome_iff_exists.mp (h.2 0 (Nat.succ_pos n))⟩

theorem Sees.tail (h : k.Sees c va (n + 1)) : k.Sees c (va + 1) n := by
  refine ⟨by have := h.1; omega, fun j hj => ?_⟩
  have := h.2 (j + 1) (by omega)
  rwa [Nat.add_comm j 1, ← Nat.add_assoc] at this

/-- The first character, and the rest of the string unless that is its end. -/
theorem SeesString.head (h : k.SeesString c va) :
    ∃ b, va < kernelBase ∧ userView k.phys.mem (k.procs c).pageTable va = some b ∧
      (b ≠ 0 → k.SeesString c (va + 1)) := by
  obtain ⟨n, hs, h0⟩ := h
  obtain ⟨hlt, b, hb⟩ := hs.head
  refine ⟨b, hlt, hb, fun hne => ?_⟩
  cases n with
  | zero =>
      rw [Nat.add_zero, hb, Option.some.injEq] at h0
      exact absurd h0 hne
  | succ n => exact ⟨n, hs.tail, by rwa [Nat.add_comm n, ← Nat.add_assoc] at h0⟩

theorem Sees.congr (h : k.Sees c va n)
    (hv : ∀ x < kernelBase, (userView k.phys.mem (k.procs c).pageTable x).isSome →
      (userView k'.phys.mem (k'.procs c).pageTable x).isSome) : k'.Sees c va n :=
  ⟨h.1, fun j hj => hv _ (by have := h.1; omega) (h.2 j hj)⟩

namespace Running

variable (h : Running L k F c)
include h

/-! ## Reading -/

theorem loadU8_of_view (hva : va < kernelBase) (hb : userView k.phys.mem (k.procs c).pageTable va = some b) :
    k.loadU8 va = .ok b := by
  unfold userView userAddr at hb
  rw [Option.map_map] at hb
  obtain ⟨pg, hf, rfl⟩ := Option.map_eq_some_iff.mp hb
  have h38 : va < 2 ^ 38 := by
    unfold kernelBase at hva
    omega
  rw [loadU8, Nat.mod_eq_of_lt (by omega), h.active, translate_of_frame hf h38 (h.spaceMap.user hf).readable]
  rfl

theorem loadBytes_total (hs : k.Sees c va n) : ∃ l, k.loadBytes va n = .ok l := by
  induction n generalizing va with
  | zero => exact ⟨[], rfl⟩
  | succ n ih =>
      obtain ⟨hlt, b, hb⟩ := hs.head
      obtain ⟨l, hl⟩ := ih hs.tail
      exact ⟨b :: l, by rw [loadBytes, h.loadU8_of_view hlt hb, ok_bind, hl, ok_bind]⟩

theorem loadStr_total (hs : k.SeesString c va) (n : Nat) : ∃ l, k.loadStr va n = .ok l := by
  induction n generalizing va with
  | zero => exact ⟨[], rfl⟩
  | succ n ih =>
      obtain ⟨b, hlt, hb, htail⟩ := hs.head
      rw [loadStr, h.loadU8_of_view hlt hb, ok_bind]
      split
      · exact ⟨[], rfl⟩
      · rename_i hne
        obtain ⟨l, hl⟩ := ih (htail hne)
        exact ⟨b :: l, by rw [hl, ok_bind]⟩

theorem strEq_total (hs : k.SeesString c va) (h0 : 0 ∉ name) : ∃ r, k.strEq va name = .ok r := by
  induction name generalizing va with
  | nil =>
      obtain ⟨b, hlt, hb, -⟩ := hs.head
      exact ⟨_, by rw [strEq, h.loadU8_of_view hlt hb, ok_bind]⟩
  | cons d name ih =>
      obtain ⟨b, hlt, hb, htail⟩ := hs.head
      rw [List.mem_cons, not_or] at h0
      rw [strEq, h.loadU8_of_view hlt hb, ok_bind]
      split
      · rename_i he
        exact ih (htail fun hz => h0.1 (hz.symm.trans he)) h0.2
      · exact ⟨_, rfl⟩

theorem tarfsLookup_total (hs : k.SeesString c va) (h0 : ∀ f ∈ fs, 0 ∉ f.1) : ∃ r, k.tarfsLookup va fs = .ok r := by
  induction fs with
  | nil => exact ⟨none, rfl⟩
  | cons f fs ih =>
      obtain ⟨hf, hfs⟩ := List.forall_mem_cons.mp h0
      obtain ⟨r, hr⟩ := h.strEq_total hs hf
      rw [tarfsLookup, hr, ok_bind]
      split
      · exact ⟨_, rfl⟩
      · exact ih hfs

/-! ## Writing -/

theorem storeU8_total (b : UInt8) (hva : va < kernelBase)
    (hv : (userView k.phys.mem (k.procs c).pageTable va).isSome) : ∃ k', k.storeU8 L va b = .ok k' := by
  unfold userView userAddr at hv
  rw [Option.isSome_map, Option.isSome_map] at hv
  obtain ⟨pg, hf⟩ := Option.isSome_iff_exists.mp hv
  have h38 : va < 2 ^ 38 := by
    unfold kernelBase at hva
    omega
  have hpage := (h.spaceOk.page pg (inSpace_of_frame hf)).1.ge
  rw [storeU8, Nat.mod_eq_of_lt (by omega), h.active, translate_of_frame hf h38 (h.spaceMap.user hf).writable]
  exact ⟨_, if_neg (by omega)⟩

/-- A store takes nothing away from what the process sees. -/
theorem storeU8_sees (hva : va < kernelBase) (hs : k.storeU8 L va b = .ok k') (hx : x < kernelBase)
    (hv : (userView k.phys.mem (k.procs c).pageTable x).isSome) :
    (userView k'.phys.mem (k'.procs c).pageTable x).isSome := by
  rw [h.storeU8_view hva hs hx]
  split
  · rfl
  · exact hv

theorem storeBytes_total (bs : List UInt8) (hs : k.Sees c va bs.length) : ∃ k', k.storeBytes L va bs = .ok k' ∧
    Running L k' F c ∧ UserWrites k c k' ∧ ∀ x < kernelBase, (userView k.phys.mem (k.procs c).pageTable x).isSome →
      (userView k'.phys.mem (k'.procs c).pageTable x).isSome := by
  induction bs generalizing k va with
  | nil => exact ⟨k, rfl, h, .refl _ _, fun _ _ hv => hv⟩
  | cons b bs ih =>
      obtain ⟨hlt, b', hb'⟩ := hs.head
      obtain ⟨k₁, h1⟩ := h.storeU8_total b hlt (Option.isSome_iff_exists.mpr ⟨b', hb'⟩)
      have hw := storeU8_spec h.toInv h.live h.pageTable h.active hlt h1
      have hsees : ∀ x < kernelBase, (userView k.phys.mem (k.procs c).pageTable x).isSome →
          (userView k₁.phys.mem (k₁.procs c).pageTable x).isSome := fun x hx hv => h.storeU8_sees hlt h1 hx hv
      obtain ⟨k', h2, hr, hw', hsees'⟩ := ih (h.userWrites hw) (hs.tail.congr hsees)
      refine ⟨k', by rw [storeBytes, h1, ok_bind, h2], hr, hw.trans hw' h.toInv h.live h.pageTable,
        fun x hx hv => hsees' x hx (hsees x hx hv)⟩

/-- `copy_to_user` goes through the map of the kernel. -/
theorem copyToUser_total (hm : k.Halves L c) (va : Nat) (bs : List UInt8) :
    ∃ ret k', k.copyToUser L va bs = .ok (.value ret, k') := by
  induction bs generalizing k va with
  | nil => exact ⟨0, k, rfl⟩
  | cons b bs ih =>
      have hnt : ¬IsTable k.phys.mem (k.procs c).pageTable 0 := fun ht =>
        (h.spaceOk.page 0 ht.inSpace).1.ne_zero rfl
      rw [copyToUser, h.cur]
      generalize hpa : (mappedByte k.phys.mem (k.procs c).pageTable (va % 2 ^ 64)).getD 0 = pa
      have hwalk : k.phys.walkaddr L k.owner (k.procs c).pageTable (va % 2 ^ 64) = .ok pa := by
        rw [walkaddr_eq hnt, hpa]
      rw [hwalk, ok_bind]
      by_cases h0 : pa = 0
      · exact ⟨neg64 1, k, if_pos h0⟩
      rw [if_neg h0]
      have huser := h.walkaddr_userPage hwalk h0
      obtain ⟨v, hv⟩ := huser
      have hpage := (h.spaceOk.page _ (inSpace_of_frame hv)).1
      have hge := hpage.ge
      have hlt := hpage.lt
      have halign := L.freeRamEnd_aligned
      have hbase := L.kernelBase_lt_freeRam
      have hend := L.freeRamEnd_lt
      unfold pageOf at hge hlt
      have htr := hm.mapsKernel.kernel pa pteW (by omega) (by omega) (.inr (.inl rfl))
      have h1 : k.storeU8 L pa b = .ok { k with phys := { k.phys with mem := Function.update k.phys.mem pa b } } := by
        rw [storeU8, Nat.mod_eq_of_lt (by omega), h.active, htr]
        exact if_neg (by omega)
      have hw := h.storeU8_identity ⟨v, hv⟩ h1
      rw [h1, ok_bind]
      exact ih (h.userWrites hw) (hm.congr h.live (hw.sameMap h.toValid h.live c)) (va + 1)

end Running

end Kernel

end RiscvOs
