import RiscvOs.Theorems.Copy
import RiscvOs.Lib.Scatter

/-!
# The arguments on a new stack

`setup_user_arguments` packs the strings below the top of the stack, each below the one before it, and the array
of pointers below them all.
-/

namespace RiscvOs

open ByteMem Outcome

variable {L : Layout} {k : Kernel} {F : List Nat} {c : Fin procsMax} {m : Mem} {argvBuf argc sp va a i j n pg : Nat} {l : List UInt8} {ptrs : List Nat}

namespace Kernel

/-- Where the byte at `va` of the active address space lies. -/
def addrOf (k : Kernel) (va : Nat) : Nat := pte2pa (leafAt k.phys.mem k.satp (vpn va)) + va % 4096

/-- The kernel with other bytes in memory. -/
def setMem (k : Kernel) (m : Mem) : Kernel := { k with phys := { k.phys with mem := m } }

/-- An address of the user's stack. -/
def OnStack (k : Kernel) (va : Nat) : Prop := k.gUserStackBottom ≤ va ∧ va < k.gUserStackTop

end Kernel

open Kernel

/-- The new address space is active: its stack of 64 KiB has frames of its own, and `argv_buf` is none of them. -/
structure StackReady (L : Layout) (k : Kernel) (argvBuf : Nat) : Prop where
  size : k.gUserStackTop = k.gUserStackBottom + 0x10000
  aligned : k.gUserStackTop % 8 = 0
  below : k.gUserStackTop ≤ 2 ^ 38
  root : k.satp % 4096 = 0
  argv : argvBuf % 4096 = 0
  leaf : ∀ va, k.OnStack va → ∃ pg, UserLeaf (leafAt k.phys.mem k.satp (vpn va)) pg ∧ L.freeRam ≤ pg ∧
    ¬IsTable k.phys.mem k.satp pg ∧ pg ≠ argvBuf
  distinct : ∀ va va' pg, k.OnStack va → k.OnStack va' → userFrame (leafAt k.phys.mem k.satp (vpn va)) = some pg →
    userFrame (leafAt k.phys.mem k.satp (vpn va')) = some pg → va / 4096 = va' / 4096

/-! ## Bytes of the stack -/

namespace StackReady

variable (h : StackReady L k argvBuf)
include h

theorem addrOf (hva : k.OnStack va) : ∃ pg, UserLeaf (leafAt k.phys.mem k.satp (vpn va)) pg ∧ L.freeRam ≤ pg ∧
    ¬IsTable k.phys.mem k.satp pg ∧ pg ≠ argvBuf ∧ k.addrOf va = pg + va % 4096 ∧ pageOf (k.addrOf va) = pg := by
  obtain ⟨pg, hl, hram, htab, hne⟩ := h.leaf va hva
  have hpg := pte2pa_of_userFrame hl.frame
  have hal := pte2pa_aligned (leafAt k.phys.mem k.satp (vpn va))
  refine ⟨pg, hl, hram, htab, hne, by rw [Kernel.addrOf, hpg], ?_⟩
  rw [Kernel.addrOf, hpg]
  unfold pageOf
  omega

theorem inj (h1 : k.OnStack va) (h2 : k.OnStack a) (he : k.addrOf va = k.addrOf a) : va = a := by
  obtain ⟨pg, hl, _, _, _, hadd, hp⟩ := h.addrOf h1
  obtain ⟨pg', hl', _, _, _, hadd', hp'⟩ := h.addrOf h2
  obtain rfl : pg = pg' := by rw [← hp, ← hp', he]
  have := h.distinct va a pg h1 h2 hl.frame hl'.frame
  omega

theorem translate (hva : k.OnStack va) (mask : Nat) (hm : mask = pteR ∨ mask = pteW) :
    Phys.translate k.phys.mem k.satp (va % 2 ^ 64) mask = some (k.addrOf va) := by
  obtain ⟨pg, hl, _, _, _, hadd, _⟩ := h.addrOf hva
  have hlt : va < 2 ^ 38 := Nat.lt_of_lt_of_le hva.2 h.below
  rw [Nat.mod_eq_of_lt (by omega), hadd]
  refine translate_of_frame hl.frame hlt ?_
  rcases hm with rfl | rfl
  · exact hl.readable
  · exact hl.writable

/-- The staging rows are no bytes of the stack. -/
theorem row_ne (hi : i < 32) (hj : j < maxArgLength) (hva : k.OnStack va) : k.addrOf va ≠ argvRow argvBuf i + j := by
  obtain ⟨pg, _, _, _, hne, _, hp⟩ := h.addrOf hva
  have := h.argv
  intro he
  rw [he] at hp
  unfold pageOf argvRow maxArgLength at *
  omega

/-- After stores to the stack. -/
theorem setMem (hm : ∀ a, (∀ va, k.OnStack va → k.addrOf va ≠ a) → m a = k.phys.mem a) :
    StackReady L (k.setMem m) argvBuf ∧ (k.setMem m).addrOf = k.addrOf ∧
      ∀ i < 32, rowString m argvBuf i = rowString k.phys.mem argvBuf i := by
  have hsame : ∀ a, IsTable k.phys.mem k.satp (pageOf a) → m a = k.phys.mem a := fun a ha => hm a fun va hva he => by
    obtain ⟨pg, _, _, htab, _, _, hp⟩ := h.addrOf hva
    exact htab (hp ▸ he ▸ ha)
  have hal : ∀ pg, IsTable k.phys.mem k.satp pg → pg % 4096 = 0 := fun pg hpg => isTable_aligned h.root hpg
  have hleaf := leafAt_congr hsame hal
  refine ⟨⟨h.size, h.aligned, h.below, h.root, h.argv, fun va hva => ?_, fun va va' pg h1 h2 => ?_⟩, ?_, fun i hi => ?_⟩
  · obtain ⟨pg, hl, hram, htab, hne⟩ := h.leaf va hva
    refine ⟨pg, by rw [Kernel.setMem, hleaf]; exact hl, hram, ?_, hne⟩
    rw [Kernel.setMem, IsTable, tableAt_congr hsame hal]
    exact htab
  · rw [Kernel.setMem, hleaf]
    exact h.distinct va va' pg h1 h2
  · funext va
    rw [Kernel.addrOf, Kernel.addrOf, Kernel.setMem, hleaf]
  · unfold rowString
    refine congrArg _ (List.map_congr_left fun j hj => hm _ fun va hva => ?_)
    exact h.row_ne hi (List.mem_range.mp hj) hva

/-- A store to the stack. -/
theorem storeBytes (h1 : k.gUserStackBottom ≤ va) (h2 : va + l.length ≤ k.gUserStackTop) :
    k.storeBytes L va l = .ok (k.setMem (scatter k.addrOf k.phys.mem va l)) := by
  induction l generalizing k va with
  | nil => rfl
  | cons b l ih =>
      rw [List.length_cons] at h2
      have hva : k.OnStack va := ⟨h1, by omega⟩
      obtain ⟨pg, _, hram, _, _, hadd, _⟩ := h.addrOf hva
      obtain ⟨hready, haddr, _⟩ := h.setMem (m := Function.update k.phys.mem (k.addrOf va) b) fun a ha =>
        Function.update_of_ne (ha va hva).symm ..
      have hstore : k.storeU8 L va b = .ok (k.setMem (Function.update k.phys.mem (k.addrOf va) b)) := by
        rw [storeU8, h.translate hva pteW (.inr rfl)]
        dsimp only
        rw [if_neg (by omega)]
        rfl
      rw [Kernel.storeBytes, hstore, ok_bind, ih hready (Nat.le_succ_of_le h1) (by show va + 1 + l.length ≤ k.gUserStackTop; omega),
        haddr]
      rfl

theorem loadU8 (hva : k.OnStack va) : k.loadU8 va = .ok (k.phys.mem (k.addrOf va)) := by
  rw [Kernel.loadU8, h.translate hva pteR (.inl rfl)]

end StackReady

/-! ## The strings -/

/-- What the first `n` strings have become: pointers `q`, from `sp` down to `sp'`, and memory. -/
structure Pushed (k : Kernel) (argvBuf n sp sp' : Nat) (q : Nat → Nat) (m : Mem) : Prop where
  le : sp' ≤ sp
  ge : sp ≤ sp' + 136 * n
  aligned : sp % 8 = 0 → sp' % 8 = 0
  slot : ∀ i < n, q i % 8 = 0 ∧ sp' ≤ q i ∧ q i + (rowString k.phys.mem argvBuf i).length + 1 ≤ sp
  apart : ∀ i j, i < j → j < n → q i + (rowString k.phys.mem argvBuf i).length + 1 ≤ q j
  text : ∀ i < n, ∀ x (hx : x < (rowString k.phys.mem argvBuf i ++ [0]).length),
    m (k.addrOf (q i + x)) = (rowString k.phys.mem argvBuf i ++ [0])[x]
  outside : ∀ a, (∀ va, sp' ≤ va → va < sp → k.addrOf va ≠ a) → m a = k.phys.mem a

/-- The loop over the strings, the last one first. -/
theorem StackReady.pushArgs (h : StackReady L k argvBuf) (hlo : k.gUserStackBottom + 136 * n ≤ sp)
    (hhi : sp ≤ k.gUserStackTop) (hn : n ≤ 32) (hrow : ∀ i < n, (rowString k.phys.mem argvBuf i).length ≤ 127) :
    ∃ sp' q m, k.pushArgs L argvBuf n sp ptrs = .ok (sp', (List.range n).map q ++ ptrs, k.setMem m) ∧
      Pushed k argvBuf n sp sp' q m := by
  induction n generalizing k sp ptrs with
  | zero =>
      exact ⟨sp, fun _ => 0, k.phys.mem, rfl, Nat.le_refl _, Nat.le_refl _, id, by omega, by omega, by omega,
        fun _ _ => rfl⟩
  | succ n ih =>
      have hlen := hrow n (Nat.lt_succ_self n)
      obtain ⟨s, hs⟩ : ∃ s, s = rowString k.phys.mem argvBuf n := ⟨_, rfl⟩
      rw [← hs] at hlen
      have hbelow := h.below
      obtain ⟨sp₁, hsp₁⟩ : ∃ x, x = (sp + (2 ^ 64 - (s.length + 1))) % 2 ^ 64 / 8 * 8 := ⟨_, rfl⟩
      have hle : sp₁ + (s.length + 1) ≤ sp ∧ sp ≤ sp₁ + 136 ∧ sp₁ % 8 = 0 := by omega
      have hl : (s ++ [0]).length = s.length + 1 := by simp
      have hstack : ∀ va, sp₁ ≤ va → va < sp₁ + (s ++ [0]).length → k.OnStack va := fun va h1 h2 => ⟨by omega, by omega⟩
      obtain ⟨m₁, hm₁⟩ : ∃ m, m = scatter k.addrOf k.phys.mem sp₁ (s ++ [0]) := ⟨_, rfl⟩
      have hout : ∀ a, (∀ va, sp₁ ≤ va → va < sp → k.addrOf va ≠ a) → m₁ a = k.phys.mem a := fun a ha => by
        rw [hm₁]
        exact scatter_outside fun x h1 h2 => ha x h1 (by omega)
      obtain ⟨hready, haddr, hrows⟩ := h.setMem (m := m₁) fun a ha => hout a fun va h1 h2 => ha va ⟨by omega, by omega⟩
      obtain ⟨sp', q, m, hrun, hp⟩ := @ih (k.setMem m₁) sp₁ (sp₁ :: ptrs) hready
        (by show k.gUserStackBottom + 136 * n ≤ sp₁; omega) (by show sp₁ ≤ k.gUserStackTop; omega) (by omega)
        fun i hi => by
          rw [Kernel.setMem, hrows i (by omega)]
          exact hrow i (by omega)
      obtain ⟨h1, h2, h3, h4, h5, h6, h7⟩ := hp
      rw [haddr] at h6 h7
      simp only [Kernel.setMem] at h4 h5 h6 h7
      refine ⟨sp', fun i => if i = n then sp₁ else q i, m, ?_, by omega, by omega, fun _ => h3 hle.2.2,
        fun i hi => ?_, fun i j hij hj => ?_, fun i hi x hx => ?_, fun a ha => ?_⟩
      · rw [Kernel.pushArgs, ← hs, ← hsp₁, if_neg (by omega), h.storeBytes (by omega) (by omega), ok_bind, ← hm₁, hrun]
        have hmap : (List.range n).map (fun i => if i = n then sp₁ else q i) = (List.range n).map q :=
          List.map_congr_left fun i hi => if_neg (Nat.ne_of_lt (List.mem_range.mp hi))
        rw [List.range_succ, List.map_append, hmap, List.append_assoc]
        simp [Kernel.setMem]
      · rcases Nat.lt_succ_iff_lt_or_eq.mp hi with hlt | rfl
        · rw [if_neg (by omega)]
          have := h4 i hlt
          rw [hrows i (by omega)] at this
          omega
        · rw [if_pos rfl, ← hs]
          omega
      · rw [if_neg (by omega)]
        rcases Nat.lt_succ_iff_lt_or_eq.mp hj with hlt | rfl
        · rw [if_neg (by omega), ← hrows i (by omega)]
          exact h5 i j hij hlt
        · rw [if_pos rfl, ← hrows i (by omega)]
          exact (h4 i hij).2.2
      · rcases Nat.lt_succ_iff_lt_or_eq.mp hi with hlt | rfl
        · simp only [if_neg (Nat.ne_of_lt hlt)]
          have ht := h6 i hlt
          simp only [hrows i (by omega)] at ht
          exact ht x hx
        · simp only [if_true]
          simp only [← hs] at hx ⊢
          rw [h7 _ fun va hva1 hva2 he => ?_, hm₁]
          · exact scatter_inside (fun y z hy1 hy2 hz1 hz2 => h.inj (hstack y hy1 hy2) (hstack z hz1 hz2)) hx
          · have := h.inj ⟨by omega, by omega⟩ (hstack (sp₁ + x) (by omega) (by omega)) he
            omega
      · rw [h7 a fun va hva1 hva2 => ha va hva1 (by omega)]
        exact hout a fun va hva1 hva2 => ha va (by omega) hva2

/-! ## Reading them back -/

/-- A string in the memory of the process is read up to its 0. -/
theorem loadStr_of_bytes {s : List UInt8} (h : ∀ x (hx : x < (s ++ [0]).length), k.loadU8 (va + x) = .ok (s ++ [0])[x])
    (h0 : 0 ∉ s) (hn : s.length < n) : k.loadStr va n = .ok s := by
  induction s generalizing va n with
  | nil =>
      obtain ⟨n, rfl⟩ : ∃ j, n = j + 1 := ⟨n - 1, by omega⟩
      have hb : k.loadU8 va = .ok 0 := h 0 (by simp)
      rw [loadStr, hb, ok_bind, if_pos rfl]
  | cons c s ih =>
      obtain ⟨n, rfl⟩ : ∃ j, n = j + 1 := ⟨n - 1, by omega⟩
      have hb : k.loadU8 va = .ok c := h 0 (by simp)
      rw [List.mem_cons, not_or] at h0
      rw [loadStr, hb, ok_bind, if_neg (Ne.symm h0.1), ih (fun x hx => ?_) h0.2 (Nat.lt_of_succ_lt_succ hn)]
      · rfl
      · rw [Nat.add_right_comm]
        exact h (x + 1) (Nat.succ_lt_succ hx)

theorem rowString_no_zero (m : Mem) (argvBuf i : Nat) : 0 ∉ rowString m argvBuf i := by
  intro h
  unfold rowString at h
  exact absurd (List.mem_takeWhile_imp h) (by decide)

/-- A row that ends is shorter than its place. -/
theorem rowString_lt (h : ∃ j < maxArgLength, m (argvRow argvBuf i + j) = 0) :
    (rowString m argvBuf i).length ≤ 127 := by
  obtain ⟨j, hj, h0⟩ := h
  have hle := rowString_length m argvBuf i
  unfold maxArgLength at hj hle
  by_contra hgt
  have hpre := List.takeWhile_prefix (· != 0) (l := (List.range maxArgLength).map fun j => m (argvRow argvBuf i + j))
  have heq : rowString m argvBuf i = (List.range maxArgLength).map fun j => m (argvRow argvBuf i + j) :=
    hpre.eq_of_length (by
      have : (rowString m argvBuf i).length = 128 := by omega
      unfold rowString at this
      rw [this]
      simp [maxArgLength])
  refine rowString_no_zero m argvBuf i ?_
  rw [heq, List.mem_map]
  exact ⟨j, List.mem_range.mpr hj, h0⟩

/-- A pointer in the memory of the process. -/
theorem loadU64_of_bytes {p : Nat} (hp : p < 2 ^ 64) (h : ∀ x < 8, k.loadU8 (va + x) = .ok (byteOf p x)) :
    k.loadU64 va = .ok p := by
  have h0 := h 0 (by decide)
  rw [Nat.add_zero] at h0
  simp only [loadU64, show List.range 8 = [0, 1, 2, 3, 4, 5, 6, 7] from rfl, List.foldlM_cons, List.foldlM_nil,
    Nat.add_zero, h0, h 1 (by decide), h 2 (by decide), h 3 (by decide), h 4 (by decide), h 5 (by decide),
    h 6 (by decide), h 7 (by decide), ok_bind, byteOf_toNat]
  refine congrArg Except.ok ?_
  omega

/-- The bytes of an array of pointers. -/
theorem flatMap_bytes_get {ps : List Nat} {x : Nat} (hi : i < ps.length) (hx : x < 8)
    (hlt : 8 * i + x < (ps.flatMap fun p => (List.range 8).map (byteOf p)).length) :
    (ps.flatMap fun p => (List.range 8).map (byteOf p))[8 * i + x] = byteOf ps[i] x := by
  induction ps generalizing i with
  | nil => cases hi
  | cons p ps ih =>
      have hl : ((List.range 8).map (byteOf p)).length = 8 := by simp
      cases i with
      | zero =>
          simp only [List.flatMap_cons, Nat.mul_zero, Nat.zero_add, List.getElem_cons_zero]
          rw [List.getElem_append_left (by omega)]
          simp
      | succ i =>
          simp only [List.flatMap_cons, List.getElem_cons_succ]
          rw [List.getElem_append_right (by omega)]
          have hsub : 8 * (i + 1) + x - ((List.range 8).map (byteOf p)).length = 8 * i + x := by omega
          simp only [hsub]
          exact ih (Nat.lt_of_succ_lt_succ hi) _

/-! ## The result -/

/-- `setup_user_arguments` does not panic. It returns `argv`, which is the new stack pointer: an aligned array of
pointers that ends with NULL, below the strings. The strings are copies of the rows, each in a place of its own, and
nothing outside the new part of the stack is written. -/
theorem setupUserArguments_layout (h : StackReady L k argvBuf) (h1 : 1 ≤ argc) (h8 : argc ≤ maxArgs)
    (hrow : ∀ i < argc, ∃ j < maxArgLength, k.phys.mem (argvRow argvBuf i + j) = 0) :
    ∃ (argv : Nat) (q : Nat → Nat) (k' : Kernel), k.setupUserArguments L argvBuf argc k.gUserStackTop = .ok (argv, k') ∧
      argv % 8 = 0 ∧ k.gUserStackBottom ≤ argv ∧ k'.loadU64 (argv + 8 * argc) = .ok 0 ∧
      (∀ i < argc, k'.loadU64 (argv + 8 * i) = .ok (q i) ∧ q i % 8 = 0 ∧ argv ≤ q i ∧ q i < k.gUserStackTop ∧
        k'.loadStr (q i) maxArgLength = .ok (rowString k.phys.mem argvBuf i) ∧
        k'.loadU8 (q i + (rowString k.phys.mem argvBuf i).length) = .ok 0) ∧
      (∀ i < argc, argv + 8 * (argc + 1) ≤ q i ∧
        q i + (rowString k.phys.mem argvBuf i).length + 1 ≤ k.gUserStackTop) ∧
      (∀ i j, i < j → j < argc → q i + (rowString k.phys.mem argvBuf i).length + 1 ≤ q j) ∧
      k' = k.setMem k'.phys.mem ∧
      ∀ a, (∀ va, argv ≤ va → va < k.gUserStackTop → k.addrOf va ≠ a) → k'.phys.mem a = k.phys.mem a := by
  have hsize := h.size
  have hbelow := h.below
  have hal := h.aligned
  unfold maxArgs at h8
  obtain ⟨sp, q, m, hrun, hp⟩ := @StackReady.pushArgs L k argvBuf k.gUserStackTop argc [] h (by omega)
    (Nat.le_refl _) (by omega) fun i hi => rowString_lt (hrow i hi)
  rw [List.append_nil] at hrun
  have hle := hp.le
  have hge := hp.ge
  have hsp := hp.aligned hal
  obtain ⟨argv, hargv⟩ : ∃ x, x = (sp + (2 ^ 64 - (argc + 1) * 8)) % 2 ^ 64 / 8 * 8 := ⟨_, rfl⟩
  have hav : argv + 8 * (argc + 1) = sp := by omega
  obtain ⟨hready, haddr, _⟩ := h.setMem (m := m) fun a ha =>
    hp.outside a fun va h1 h2 => ha va ⟨by omega, h2⟩
  -- the array of pointers
  obtain ⟨ps, hps⟩ : ∃ ps, ps = (List.range argc).map q ++ [0] := ⟨_, rfl⟩
  have hpl : ps.length = argc + 1 := by simp [hps]
  obtain ⟨bs, hbs⟩ : ∃ bs, bs = ps.flatMap fun p => (List.range 8).map (byteOf p) := ⟨_, rfl⟩
  have hbl : bs.length = 8 * (argc + 1) := by rw [hbs, flatMap_bytes_length, hpl]
  obtain ⟨m', hm'⟩ : ∃ m', m' = scatter k.addrOf m argv bs := ⟨_, rfl⟩
  have hout : ∀ a, (∀ va, argv ≤ va → va < sp → k.addrOf va ≠ a) → m' a = m a := fun a ha => by
    rw [hm']
    exact scatter_outside fun x hx1 hx2 => ha x hx1 (by omega)
  have hall : ∀ a, (∀ va, argv ≤ va → va < k.gUserStackTop → k.addrOf va ≠ a) → m' a = k.phys.mem a := fun a ha => by
    rw [hout a fun va hv1 hv2 => ha va hv1 (by omega), hp.outside a fun va hv1 hv2 => ha va (by omega) hv2]
  obtain ⟨hready', haddr', _⟩ := h.setMem (m := m') fun a ha => hall a fun va hv1 hv2 => ha va ⟨by omega, hv2⟩
  have hstack : ∀ va, argv ≤ va → va < k.gUserStackTop → k.OnStack va := fun va hv1 hv2 => ⟨by omega, hv2⟩
  have hload : ∀ va, argv ≤ va → va < k.gUserStackTop → (k.setMem m').loadU8 va = .ok (m' (k.addrOf va)) :=
    fun va hv1 hv2 => by
      rw [hready'.loadU8 (hstack va hv1 hv2), haddr']
      rfl
  have hptr : ∀ i (hi : i < ps.length), ps[i] < 2 ^ 64 → (k.setMem m').loadU64 (argv + 8 * i) = .ok ps[i] :=
    fun i hi hlt => loadU64_of_bytes hlt fun x hx => by
      rw [hload _ (by omega) (by omega), hm', Nat.add_assoc, scatter_inside (fun y z hy1 hy2 hz1 hz2 =>
        h.inj (hstack y hy1 (by omega)) (hstack z hz1 (by omega))) (by omega)]
      simp only [hbs]
      rw [flatMap_bytes_get hi hx]
  have hpsq : ∀ i (hi : i < argc) (hi' : i < ps.length), ps[i] = q i := fun i hi hi' => by
    simp [hps, List.getElem_append_left, hi]
  have htext : ∀ i < argc, ∀ x (hx : x < (rowString k.phys.mem argvBuf i ++ [0]).length),
      (k.setMem m').loadU8 (q i + x) = .ok (rowString k.phys.mem argvBuf i ++ [0])[x] := fun i hi x hx => by
    have hs := hp.slot i hi
    have hx' : x < (rowString k.phys.mem argvBuf i).length + 1 := by simpa using hx
    rw [hload _ (by omega) (by omega), hout _ fun va hv1 hv2 he => ?_, hp.text i hi x hx]
    have := h.inj (hstack va hv1 (by omega)) (hstack (q i + x) (by omega) (by omega)) he
    omega
  refine ⟨argv, q, k.setMem m', ?_, by omega, by omega, ?_, fun i hi => ?_, fun i hi => ?_, hp.apart, rfl, hall⟩
  · rw [setupUserArguments, if_neg (by unfold maxArgs; omega), hrun, ok_bind]
    dsimp only
    rw [← hargv, if_neg (by show ¬argv < k.gUserStackBottom; omega), ← hps, ← hbs,
      hready.storeBytes (by show k.gUserStackBottom ≤ argv; omega) (by show argv + bs.length ≤ k.gUserStackTop; omega),
      ok_bind, haddr, hm']
    rfl
  · have hlt : argc < ps.length := by omega
    have hlast : ps[argc] = 0 := by simp [hps]
    have := hptr argc hlt (by rw [hlast]; decide)
    rwa [hlast] at this
  · have hs := hp.slot i hi
    have hlt : i < ps.length := by omega
    have hi' := hptr i hlt (by rw [hpsq i hi hlt]; omega)
    rw [hpsq i hi hlt] at hi'
    refine ⟨hi', hs.1, by omega, by omega, loadStr_of_bytes (htext i hi) (rowString_no_zero _ _ _) ?_, ?_⟩
    · have := rowString_lt (hrow i hi)
      unfold maxArgLength
      omega
    · rw [htext i hi _ (by simp)]
      simp
  · have hs := hp.slot i hi
    omega

/-! ## The stack of a new program -/

namespace Kernel

/-- The stack that `user.ld` lays out. -/
theorem Inv.stackReady (hk : k.Inv L F) (hl : k.Live c) (hpt : (k.procs c).pageTable ≠ 0) (hg : k.Globals)
    (hactive : k.satp = (k.procs c).pageTable)
    (hdata : ∀ v, DataPage 0x1020000 0x1010000 0x3000000 v → DataLeaf (leafAt k.phys.mem (k.procs c).pageTable v))
    (hal : argvBuf % 4096 = 0) (hout : ¬InSpace k.phys.mem (k.procs c).pageTable argvBuf) :
    StackReady L k argvBuf := by
  have hspace := (hk.proc c hl).spaceOk hpt
  have hstack : ∀ va, k.OnStack va → 0x1010000 ≤ va ∧ va < 0x1020000 := fun va hva => by
    rw [OnStack, hg.stackTop, hg.stackBottom] at hva
    exact hva
  refine ⟨by rw [hg.stackTop, hg.stackBottom], by rw [hg.stackTop], by rw [hg.stackTop]; decide, ?_, hal, fun va hva => ?_,
    fun va va' pg h1 h2 hf hf' => ?_⟩ <;> rw [hactive] at *
  · exact (hspace.tables.page _ (isTable_root ..)).1.aligned
  · have hva' := hstack va hva
    obtain ⟨pg, hu⟩ := (hdata (vpn va) (.inl ⟨(va - 0x1010000) / 4096, by omega, vpn_eq_iff.mpr (by omega)⟩)).user
    have hin := inSpace_of_frame hu.frame
    exact ⟨pg, hu, (hspace.page pg hin).1.ge, hspace.frame_not_table hu.frame, fun he => hout (he ▸ hin)⟩
  · have hva := hstack va h1
    have hva' := hstack va' h2
    have hvpn := vpn_eq_iff.mp (hspace.frame_inj hf hf')
    omega

/-- Where `sys_exec` calls `setup_user_arguments`. -/
theorem Execed.stackReady {k₁ : Kernel} {F₁ : List Nat} (h : Execed L k F c k₁ F₁) (hsp : Spare L k₁ F₁ argvBuf) :
    StackReady L k₁ argvBuf :=
  h.valid.toInv.stackReady h.live h.pageTable h.valid.globals h.active h.data hsp.page.aligned fun hin => by
    obtain ⟨q, hq⟩ := holds_space (L := L) h.live h.pageTable hin
    exact hsp.free c _ hq

end Kernel

/-- The one string "x". -/
theorem setupUserArguments_layout_x : ∃ (k : Kernel) (argv p : Nat) (k' : Kernel), StackReady .kernelMap k kernelBase ∧
    k.setupUserArguments .kernelMap kernelBase 1 k.gUserStackTop = .ok (argv, k') ∧
      k'.loadU64 argv = .ok p ∧ k'.loadStr p maxArgLength = .ok [120] := by
  obtain ⟨k, F, -, hb, -, -⟩ := exists_booted .kernelMap fun _ => 0
  obtain ⟨m, hm⟩ : ∃ m : Mem, m = fun a => if a < Layout.kernelMap.freeRam then if a = kernelBase then 120 else 0
      else k.phys.mem a := ⟨_, rfl⟩
  have hhigh : ∀ a, Layout.kernelMap.freeRam ≤ a → m a = k.phys.mem a := fun a ha => by
    rw [hm]
    exact if_neg (Nat.not_lt.mpr ha)
  have hr := hb.running.lowWrite hhigh
  have hspace := hb.running.spaceOk
  have hleaf : leafAt m (k.procs 1).pageTable = leafAt k.phys.mem (k.procs 1).pageTable :=
    leafAt_congr (fun a ha => hhigh a (Nat.le_trans (hspace.page _ ha.inSpace).1.ge (Nat.div_mul_le_self ..)))
      fun pg => hspace.tables.aligned
  have h : StackReady .kernelMap (k.setMem m) kernelBase := by
    refine hr.toInv.stackReady hr.live hr.pageTable hr.globals hr.active (fun v hv => ?_) (by decide) fun hin =>
      absurd (hr.spaceOk.page _ hin).1.ge (by decide)
    show DataLeaf (leafAt m (k.procs 1).pageTable v)
    rw [hleaf]
    exact hb.data 1 hb.running.live v hv
  have hlow : ∀ j < maxArgLength, m (argvRow kernelBase 0 + j) = if j = 0 then 120 else 0 := fun j hj => by
    have hlt : argvRow kernelBase 0 + j < Layout.kernelMap.freeRam :=
      Nat.lt_trans (Nat.add_lt_add_left hj _) (by decide)
    rw [hm]
    dsimp only
    rw [if_pos hlt]
    simp only [argvRow, Nat.mul_zero, Nat.add_zero, Nat.add_eq_left]
  have hrow : rowString m kernelBase 0 = [120] := by
    rw [rowString, List.map_congr_left fun j hj => hlow j (List.mem_range.mp hj)]
    decide
  obtain ⟨argv, q, k', hk', -, -, -, hq, -⟩ := setupUserArguments_layout h (Nat.le_refl 1) (by decide) fun i hi => by
    obtain rfl : i = 0 := by omega
    exact ⟨1, by decide, hlow 1 (by decide)⟩
  obtain ⟨hp, -, -, -, hs, -⟩ := hq 0 Nat.one_pos
  exact ⟨_, argv, q 0, k', h, hk', hp, hs.trans (congrArg _ hrow)⟩

end RiscvOs
