import RiscvOs.Lib.Tiling
import RiscvOs.Theorems.Tracker

/-!
# Runs of the kernel heap

Callers allocate, free what they hold and write to what they hold. The blocks tile the heap, and those that
are not free are the allocations that are out.
-/

namespace RiscvOs

open ByteMem Tiling Lts Outcome

namespace Heap

variable {h h' : Heap} {a b c v x n : Nat}

/-! ## The fields of a block -/

theorem intFlag_congr {m m' : Mem} (hm : ∀ x, a ≤ x → x < a + 4 → m' x = m x) : intFlag m' a = intFlag m a := by
  unfold intFlag
  rw [Bool.eq_iff_iff, List.any_eq_true, List.any_eq_true]
  refine exists_congr fun j => and_congr_right fun hj => ?_
  rw [hm _ (by omega) (by have := List.mem_range.mp hj; omega)]

theorem intFlag_storeInt {m : Mem} (hv : v < 256) : intFlag (storeInt m a v) a = decide (v ≠ 0) := by
  have hbyte : ∀ j < 4, storeInt m a v (a + j) = byteOf v j := fun j hj => by
    rw [storeInt, write_inside (by omega) (by omega), Nat.add_sub_cancel_left]
  have hlow : byteOf v 0 = UInt8.ofNat v := by simp [byteOf]
  have hhigh : ∀ j, 0 < j → byteOf v j = 0 := fun j hj => by
    have : v / 256 ^ j = 0 := Nat.div_eq_of_lt (lt_of_lt_of_le hv (Nat.le_self_pow (by omega) 256))
    simp [byteOf, this]
  have h0 : UInt8.ofNat v = 0 ↔ v = 0 := by
    rw [← UInt8.toNat_inj]
    simp [Nat.mod_eq_of_lt hv]
  unfold intFlag
  rw [Bool.eq_iff_iff, List.any_eq_true, decide_eq_true_eq]
  constructor
  · rintro ⟨j, hj, hne⟩ rfl
    rw [hbyte j (List.mem_range.mp hj)] at hne
    simp [byteOf] at hne
  · intro hne
    refine ⟨0, by simp, ?_⟩
    rw [hbyte 0 (by omega), hlow, bne_iff_ne, ne_eq, h0]
    exact hne

/-- What is stored outside a header leaves the block as it is. -/
structure Same (h h' : Heap) (b : Nat) : Prop where
  size : h'.size b = h.size b
  next : h'.next b = h.next b
  free : h'.free b = h.free b

theorem Same.of_mem (hm : ∀ x, b ≤ x → x < b + blockSize → h'.mem x = h.mem x) : Same h h' b := by
  unfold blockSize at hm
  exact ⟨load64_congr fun x h1 h2 => hm x h1 (by omega), load64_congr fun x h1 h2 => hm x (by omega) (by omega),
    intFlag_congr fun x h1 h2 => hm x (by omega) (by omega)⟩

theorem Same.trans {h'' : Heap} (h₁ : Same h h' b) (h₂ : Same h' h'' b) : Same h h'' b :=
  ⟨h₂.size.trans h₁.size, h₂.next.trans h₁.next, h₂.free.trans h₁.free⟩

theorem setSize_outside (hx : x < b ∨ b + blockSize ≤ x) : (h.setSize b v).mem x = h.mem x :=
  store64_outside (by unfold blockSize at hx; omega)

theorem setNext_outside (hx : x < b ∨ b + blockSize ≤ x) : (h.setNext b v).mem x = h.mem x :=
  store64_outside (by unfold blockSize at hx; omega)

theorem setFree_outside (hx : x < b ∨ b + blockSize ≤ x) : (h.setFree b v).mem x = h.mem x :=
  write_outside (by unfold blockSize at hx; omega)

section Fields

variable (h b v)

theorem size_setSize (hv : v < 2 ^ 64) : (h.setSize b v).size b = v := load64_store64_of_lt hv
@[simp] theorem next_setSize : (h.setSize b v).next b = h.next b := load64_store64_outside (by omega)
@[simp] theorem free_setSize : (h.setSize b v).free b = h.free b :=
  intFlag_congr fun x _ _ => store64_outside (by omega)
@[simp] theorem size_setNext : (h.setNext b v).size b = h.size b := load64_store64_outside (by omega)
theorem next_setNext (hv : v < 2 ^ 64) : (h.setNext b v).next b = v := load64_store64_of_lt hv
@[simp] theorem free_setNext : (h.setNext b v).free b = h.free b :=
  intFlag_congr fun x _ _ => store64_outside (by omega)
@[simp] theorem size_setFree : (h.setFree b v).size b = h.size b := load64_write_outside (by omega)
@[simp] theorem next_setFree : (h.setFree b v).next b = h.next b := load64_write_outside (by omega)
theorem free_setFree (hv : v < 256) : (h.setFree b v).free b = decide (v ≠ 0) := intFlag_storeInt hv

end Fields

/-! ## The list of the blocks -/

/-- The blocks `bs` fill the heap, and the list that starts at `free_list` visits them in this order. -/
structure Shape (L : Layout) (h : Heap) (bs : List Nat) : Prop where
  tiles : Tiles blockSize h.size L.freeRamEnd bs L.heapEnd
  head : h.freeList = L.freeRamEnd
  next : ∀ b ∈ bs, h.next b = if b + blockSize + h.size b = L.heapEnd then 0 else b + blockSize + h.size b
  sizes : ∀ b ∈ bs, 8 ∣ h.size b

variable {L : Layout} {bs bs' pre post : List Nat} {fuel : Nat}

theorem heapEnd_lt (L : Layout) : L.heapEnd < 2 ^ 63 := by
  have := L.ram_le
  unfold Layout.heapEnd Layout.freeRamEnd
  omega

theorem freeRamEnd_pos (L : Layout) : 0 < L.freeRamEnd := by
  unfold Layout.freeRamEnd
  omega

theorem freeRamEnd_aligned (L : Layout) : 8 ∣ L.freeRamEnd := by
  have := L.freeRam_aligned
  unfold Layout.freeRamEnd
  omega

namespace Shape

/-- The other blocks do not lie where the block `b` does. -/
theorem same (hs : h.Shape L bs) (hb : b ∈ bs) (hc : c ∈ bs) (hne : c ≠ b)
    (hm : ∀ x, x < b ∨ b + blockSize + h.size b ≤ x → h'.mem x = h.mem x) : Same h h' c := by
  have hd := hs.tiles.disjoint hb hc hne.symm
  exact .of_mem fun x h1 h2 => hm x (by omega)

theorem bounds (hs : h.Shape L bs) (hb : b ∈ bs) :
    L.freeRamEnd ≤ b ∧ b + blockSize + h.size b ≤ L.heapEnd ∧ 8 ∣ b := by
  obtain ⟨h1, h2⟩ := hs.tiles.inside hb
  exact ⟨h1, h2, hs.tiles.dvd (by decide) (freeRamEnd_aligned L) hs.sizes hb⟩

/-- The loop of `malloc` finds a free block that is large enough, or ends at the end of the list. -/
theorem findBlock (hs : h.Shape L bs) (hp : ∀ b ∈ post, b ∈ bs) (ht : Tiles blockSize h.size a post L.heapEnd)
    (hf : post.length < fuel) :
    h.findBlock n fuel (if a = L.heapEnd then 0 else a) = .ok 0 ∨
      ∃ b ∈ bs, h.findBlock n fuel (if a = L.heapEnd then 0 else a) = .ok b ∧ h.free b = true ∧ n ≤ h.size b := by
  induction post generalizing a fuel with
  | nil =>
      obtain ⟨fuel, rfl⟩ := Nat.exists_eq_succ_of_ne_zero (Nat.ne_zero_of_lt hf)
      rw [if_pos (tiles_nil.mp ht)]
      exact .inl rfl
  | cons b post ih =>
      obtain ⟨fuel, rfl⟩ := Nat.exists_eq_succ_of_ne_zero (Nat.ne_zero_of_lt hf)
      obtain ⟨rfl, ht⟩ := ht
      have hb := hp b (by simp)
      have hbd := hs.bounds hb
      have h0 := freeRamEnd_pos L
      rw [if_neg (by unfold blockSize at hbd; omega)]
      unfold Heap.findBlock
      rw [if_neg (by omega)]
      split
      · rename_i hfree
        simp only [Bool.and_eq_true, decide_eq_true_eq] at hfree
        exact .inr ⟨b, hb, rfl, hfree.1, hfree.2⟩
      · rw [hs.next b hb]
        exact ih (fun c hc => hp c (by simp [hc])) ht (by simpa using hf)

/-- A block becomes free, or it is taken. -/
theorem setFree (hs : h.Shape L bs) (hb : b ∈ bs) (v : Nat) : (h.setFree b v).Shape L bs := by
  have hsame : ∀ c ∈ bs, (h.setFree b v).size c = h.size c ∧ (h.setFree b v).next c = h.next c := by
    intro c hc
    by_cases hcb : c = b
    · subst hcb
      exact ⟨size_setFree h c v, next_setFree h c v⟩
    · have : Same h (h.setFree b v) c := hs.same hb hc hcb fun x hx => setFree_outside (by omega)
      exact ⟨this.size, this.next⟩
  refine ⟨hs.tiles.congr fun c hc => (hsame c hc).1, hs.head, fun c hc => ?_, fun c hc => ?_⟩
  · rw [(hsame c hc).1, (hsame c hc).2]
    exact hs.next c hc
  · rw [(hsame c hc).1]
    exact hs.sizes c hc

theorem free_setFree_of_ne (hs : h.Shape L bs) (hb : b ∈ bs) (hc : c ∈ bs) (hne : c ≠ b) :
    (h.setFree b v).free c = h.free c :=
  (hs.same hb hc hne fun x hx => setFree_outside (by omega) : Same h (h.setFree b v) c).free

end Shape

/-- The fields of the two parts of a block that is split. -/
theorem splitBlock_fields (hn : n + blockSize ≤ h.size b) (hlt : b + blockSize + h.size b < 2 ^ 63) :
    (h.splitBlock b n).size b = n ∧ (h.splitBlock b n).next b = b + blockSize + n ∧
      (h.splitBlock b n).free b = h.free b ∧
      (h.splitBlock b n).size (b + blockSize + n) = h.size b - n - blockSize ∧
      (h.splitBlock b n).next (b + blockSize + n) = h.next b ∧ (h.splitBlock b n).free (b + blockSize + n) = true ∧
      ∀ x, x < b ∨ b + blockSize + n + blockSize ≤ x ∨ b + blockSize ≤ x ∧ x < b + blockSize + n →
        (h.splitBlock b n).mem x = h.mem x := by
  obtain ⟨y, hy⟩ : ∃ y, y = b + blockSize + n := ⟨_, rfl⟩
  have hmod : (b + blockSize + n) % 2 ^ 64 = y := by omega
  have hnext : h.next b < 2 ^ 64 := load64_lt _ _
  -- the header of the new block
  obtain ⟨h₁, e₁⟩ : ∃ h₁, h₁ = h.setSize y (h.size b + (2 ^ 64 - n) + (2 ^ 64 - blockSize)) := ⟨_, rfl⟩
  obtain ⟨h₂, e₂⟩ : ∃ h₂, h₂ = h₁.setFree y 1 := ⟨_, rfl⟩
  obtain ⟨h₃, e₃⟩ : ∃ h₃, h₃ = h₂.setNext y (h₂.next b) := ⟨_, rfl⟩
  -- the header of the block itself
  obtain ⟨h₄, e₄⟩ : ∃ h₄, h₄ = h₃.setSize b n := ⟨_, rfl⟩
  have heq : h.splitBlock b n = h₄.setNext b y := by
    simp only [splitBlock, hmod, ← e₁, ← e₂, ← e₃, ← e₄]
  have hb₂ : Same h h₂ b := by
    rw [e₂, e₁]
    exact (Same.of_mem fun x h1 h2 => setSize_outside (by omega)).trans
      (.of_mem fun x h1 h2 => setFree_outside (by omega))
  have hb₃ : Same h h₃ b := hb₂.trans (by
    rw [e₃]
    exact .of_mem fun x h1 h2 => setNext_outside (by omega))
  have hy₅ : Same h₃ (h₄.setNext b y) y := by
    rw [e₄]
    exact (Same.of_mem fun x h1 h2 => setSize_outside (by omega)).trans
      (.of_mem fun x h1 h2 => setNext_outside (by omega))
  have hsize₁ : h₁.size y = h.size b - n - blockSize := by
    rw [e₁, show (h.setSize y _).size y = _ from load64_store64 _ _ _]
    unfold blockSize at hn hlt ⊢
    omega
  rw [heq, ← hy]
  refine ⟨?_, ?_, ?_, ?_, ?_, ?_, fun x hx => ?_⟩
  · rw [size_setNext, e₄, size_setSize _ _ _ (by omega)]
  · exact next_setNext _ _ _ (by omega)
  · rw [free_setNext, e₄, free_setSize, hb₃.free]
  · rw [hy₅.size, e₃, size_setNext, e₂, size_setFree, hsize₁]
  · rw [hy₅.next, e₃, next_setNext _ _ _ (by rw [hb₂.next]; exact hnext), hb₂.next]
  · rw [hy₅.free, e₃, free_setNext, e₂, free_setFree _ _ _ (by omega)]
    rfl
  · rw [setNext_outside (by omega), e₄, setSize_outside (by omega), e₃, setNext_outside (by omega), e₂,
      setFree_outside (by omega), e₁, setSize_outside (by omega)]

/-- The fields of a block that has taken the next one in. -/
theorem coalesce_fields (hlt : h.size b + (blockSize + h.size (h.next b)) < 2 ^ 64)
    (hnext : h.next b < b ∧ h.next b + blockSize ≤ b ∨ b + blockSize ≤ h.next b) :
    (h.coalesce b).size b = h.size b + (blockSize + h.size (h.next b)) ∧
      (h.coalesce b).next b = h.next (h.next b) ∧ (h.coalesce b).free b = h.free b ∧
      ∀ x, x < b ∨ b + blockSize ≤ x → (h.coalesce b).mem x = h.mem x := by
  obtain ⟨h₁, e₁⟩ : ∃ h₁, h₁ = h.setSize b (h.size b + (blockSize + h.size (h.next b))) := ⟨_, rfl⟩
  have hn₁ : h₁.next b = h.next b := by
    rw [e₁]
    exact next_setSize h b _
  have hs₁ : Same h h₁ (h.next b) := by
    rw [e₁]
    exact .of_mem fun x h1 h2 => setSize_outside (by omega)
  have heq : h.coalesce b = h₁.setNext b (h.next (h.next b)) := by
    simp only [coalesce, ← e₁]
    rw [hn₁, hs₁.next]
  rw [heq]
  refine ⟨?_, next_setNext _ _ _ (load64_lt _ _), ?_, fun x hx => ?_⟩
  · rw [size_setNext, e₁, size_setSize _ _ _ hlt]
  · rw [free_setNext, e₁, free_setSize]
  · rw [setNext_outside hx, e₁, setSize_outside hx]

/-- A block that is allocated. -/
def Busy (h : Heap) (bs : List Nat) (b : Nat) : Prop := b ∈ bs ∧ h.free b = false

theorem Busy.not_free (hq : h.Busy bs c) (hfree : h.free b = true) : c ≠ b := by
  rintro rfl
  rw [hq.2] at hfree
  cases hfree

namespace Shape

/-- The blocks of a list with one of them between the others. -/
theorem middle (hs : h.Shape L (pre ++ b :: post)) : (∀ c ∈ pre, c ≠ b) ∧ ∀ c ∈ post, c ≠ b := by
  have hnd := (List.nodup_cons.mp (List.nodup_middle.mp (hs.tiles.nodup (by decide)))).1
  refine ⟨fun c hc he => hnd ?_, fun c hc he => hnd ?_⟩
  · exact List.mem_append_left _ (he ▸ hc)
  · exact List.mem_append_right _ (he ▸ hc)

/-- A free block is split. -/
theorem split (hs : h.Shape L bs) (hb : b ∈ bs) (hfree : h.free b = true) (hn : 8 ∣ n)
    (hle : n + blockSize + 8 ≤ h.size b) :
    ∃ bs', (h.splitBlock b n).Shape L bs' ∧ b ∈ bs' ∧ (h.splitBlock b n).size b = n ∧
      (h.splitBlock b n).free b = true ∧ (∀ q, (h.splitBlock b n).Busy bs' q ↔ h.Busy bs q) ∧
      ∀ x, x < b ∨ b + blockSize + h.size b ≤ x → (h.splitBlock b n).mem x = h.mem x := by
  have hlt := heapEnd_lt L
  obtain ⟨-, hend, h8⟩ := hs.bounds hb
  have hh := splitBlock_fields (h := h) (b := b) (n := n) (by omega) (by omega)
  have hhead : (h.splitBlock b n).freeList = L.freeRamEnd := hs.head
  generalize h.splitBlock b n = h' at hh hhead ⊢
  obtain ⟨hsz, hnx, hfr, hszy, hnxy, hfry, hmem⟩ := hh
  generalize hy : b + blockSize + n = y at hnx hszy hnxy hfry hmem
  have hout : ∀ x, x < b ∨ b + blockSize + h.size b ≤ x → h'.mem x = h.mem x := fun x hx => hmem x (by omega)
  have hsame : ∀ c ∈ bs, c ≠ b → Same h h' c := fun c hc hne => hs.same hb hc hne hout
  obtain ⟨pre, post, rfl⟩ := List.mem_iff_append.mp hb
  obtain ⟨hpre, hpost⟩ := hs.middle
  have hold : ∀ c, c ∈ pre ++ b :: y :: post ↔ c = b ∨ c = y ∨ (c ∈ pre ++ b :: post ∧ c ≠ b) := by
    intro c
    simp only [List.mem_append, List.mem_cons]
    constructor
    · rintro (hc | rfl | rfl | hc)
      · exact .inr (.inr ⟨.inl hc, hpre c hc⟩)
      · exact .inl rfl
      · exact .inr (.inl rfl)
      · exact .inr (.inr ⟨.inr (.inr hc), hpost c hc⟩)
    · rintro (rfl | rfl | ⟨hc | rfl | hc, hne⟩)
      · exact .inr (.inl rfl)
      · exact .inr (.inr (.inl rfl))
      · exact .inl hc
      · exact absurd rfl hne
      · exact .inr (.inr (.inr hc))
  have htiles : Tiles blockSize h'.size L.freeRamEnd (pre ++ b :: y :: post) L.heapEnd :=
    hs.tiles.split (by rw [hsz, hy]) (by rw [hsz, hszy]; omega)
      (fun c hc => (hsame c (by simp [hc]) (hpre c hc)).size)
      fun c hc => (hsame c (by simp [hc]) (hpost c hc)).size
  have hnext : ∀ c ∈ pre ++ b :: y :: post,
      h'.next c = if c + blockSize + h'.size c = L.heapEnd then 0 else c + blockSize + h'.size c := by
    intro c hc
    rcases (hold c).mp hc with rfl | rfl | ⟨hc, hne⟩
    · rw [hnx, hsz, hy, if_neg (by omega)]
    · rw [hnxy, hszy, hs.next b hb, show c + blockSize + (h.size b - n - blockSize) = b + blockSize + h.size b by omega]
    · rw [(hsame c hc hne).next, (hsame c hc hne).size]
      exact hs.next c hc
  have hsizes : ∀ c ∈ pre ++ b :: y :: post, 8 ∣ h'.size c := by
    intro c hc
    rcases (hold c).mp hc with rfl | rfl | ⟨hc, hne⟩
    · rw [hsz]
      exact hn
    · have := hs.sizes b hb
      rw [hszy]
      unfold blockSize
      omega
    · rw [(hsame c hc hne).size]
      exact hs.sizes c hc
  refine ⟨pre ++ b :: y :: post, ⟨htiles, hhead, hnext, hsizes⟩, by simp, hsz, hfr.trans hfree, fun q => ?_, hout⟩
  constructor
  · rintro ⟨hq, hqf⟩
    rcases (hold q).mp hq with rfl | rfl | ⟨hq, hne⟩
    · rw [hfr, hfree] at hqf
      cases hqf
    · rw [hfry] at hqf
      cases hqf
    · rw [(hsame q hq hne).free] at hqf
      exact ⟨hq, hqf⟩
  · intro hq
    have hne := hq.not_free hfree
    exact ⟨(hold q).mpr (.inr (.inr ⟨hq.1, hne⟩)), (hsame q hq.1 hne).free.trans hq.2⟩

/-- A block takes the free block behind it in. -/
theorem coalesce (hs : h.Shape L bs) (hb : b ∈ bs) (hnext : h.next b ≠ 0) (hfree : h.free (h.next b) = true) :
    ∃ bs', (h.coalesce b).Shape L bs' ∧ (∀ q, (h.coalesce b).Busy bs' q ↔ h.Busy bs q) ∧
      ∀ x, x < b ∨ b + blockSize ≤ x → (h.coalesce b).mem x = h.mem x := by
  have hlt := heapEnd_lt L
  -- the block behind it is the next one of the list
  have hne : b + blockSize + h.size b ≠ L.heapEnd := fun he => hnext (by rw [hs.next b hb, if_pos he])
  have hy : h.next b = b + blockSize + h.size b := by rw [hs.next b hb, if_neg hne]
  have hymem := hs.tiles.next_mem hb hne
  obtain ⟨-, hendb, -⟩ := hs.bounds hb
  obtain ⟨-, hendy, -⟩ := hs.bounds hymem
  have hnexty := hs.next _ hymem
  rw [← hy] at hymem hendy hnexty
  have hh := coalesce_fields (h := h) (b := b) (by unfold blockSize at *; omega) (by omega)
  have hhead : (h.coalesce b).freeList = L.freeRamEnd := hs.head
  generalize h.coalesce b = h' at hh hhead ⊢
  obtain ⟨hsz, hnx, hfr, hmem⟩ := hh
  generalize h.next b = y at hy hymem hendy hnexty hsz hnx hfree
  have hyb : y ≠ b := by unfold blockSize at hy; omega
  have hsame : ∀ c ∈ bs, c ≠ b → Same h h' c := fun c hc hne =>
    hs.same hb hc hne fun x hx => hmem x (by omega)
  obtain ⟨pre, post, rfl⟩ := List.mem_iff_append.mp hb
  obtain ⟨hpre, hpost⟩ := hs.middle
  obtain ⟨post, rfl⟩ : ∃ post', post = y :: post' := by
    have ht := (tiles_middle.mp hs.tiles).2
    cases post with
    | nil => exact absurd ht hne
    | cons z zs =>
        obtain ⟨rfl, -⟩ := ht
        exact ⟨zs, by rw [hy]⟩
  have hmiddle : h.Shape L ((pre ++ [b]) ++ y :: post) := by simpa using hs
  obtain ⟨hprey, hposty⟩ := hmiddle.middle
  have hold : ∀ c, c ∈ pre ++ b :: post ↔ c ∈ pre ++ b :: y :: post ∧ c ≠ y := by
    intro c
    simp only [List.mem_append, List.mem_cons]
    constructor
    · rintro (hc | rfl | hc)
      · exact ⟨.inl hc, hprey c (by simp [hc])⟩
      · exact ⟨.inr (.inl rfl), hyb.symm⟩
      · exact ⟨.inr (.inr (.inr hc)), hposty c hc⟩
    · rintro ⟨hc | rfl | rfl | hc, hcy⟩
      · exact .inl hc
      · exact .inr (.inl rfl)
      · exact absurd rfl hcy
      · exact .inr (.inr hc)
  have htiles : Tiles blockSize h'.size L.freeRamEnd (pre ++ b :: post) L.heapEnd :=
    hs.tiles.merge (by omega) (fun c hc => (hsame c (by simp [hc]) (hpre c hc)).size)
      fun c hc => (hsame c (by simp [hc]) (hpost c (by simp [hc]))).size
  have hnext' : ∀ c ∈ pre ++ b :: post,
      h'.next c = if c + blockSize + h'.size c = L.heapEnd then 0 else c + blockSize + h'.size c := by
    intro c hc
    obtain ⟨hc, -⟩ := (hold c).mp hc
    by_cases hcb : c = b
    · subst hcb
      rw [hnx, hsz, hnexty, show c + blockSize + (h.size c + (blockSize + h.size y)) = y + blockSize + h.size y by omega]
    · rw [(hsame c hc hcb).next, (hsame c hc hcb).size]
      exact hs.next c hc
  have hsizes : ∀ c ∈ pre ++ b :: post, 8 ∣ h'.size c := by
    intro c hc
    obtain ⟨hc, -⟩ := (hold c).mp hc
    by_cases hcb : c = b
    · subst hcb
      have h1 := hs.sizes c hc
      have h2 := hs.sizes y hymem
      rw [hsz]
      unfold blockSize
      omega
    · rw [(hsame c hc hcb).size]
      exact hs.sizes c hc
  refine ⟨pre ++ b :: post, ⟨htiles, hhead, hnext', hsizes⟩, fun q => ?_, hmem⟩
  have hfq : q ∈ pre ++ b :: y :: post → h'.free q = h.free q := fun hq => by
    by_cases hqb : q = b
    · rw [hqb, hfr]
    · exact (hsame q hq hqb).free
  constructor
  · rintro ⟨hq, hqf⟩
    obtain ⟨hq, -⟩ := (hold q).mp hq
    exact ⟨hq, (hfq hq).symm.trans hqf⟩
  · intro hq
    exact ⟨(hold q).mpr ⟨hq.1, hq.not_free hfree⟩, (hfq hq.1).trans hq.2⟩

/-- The chain from `free_list` visits the blocks in the order of their addresses. -/
theorem linked (hs : h.Shape L bs) : LinkedList.Linked h.next 0 h.freeList bs := by
  have hlt : L.freeRamEnd ≠ L.heapEnd := by
    unfold Layout.heapEnd
    omega
  have key : ∀ post a, (∀ b ∈ post, b ∈ bs) → Tiles blockSize h.size a post L.heapEnd →
      LinkedList.Linked h.next 0 (if a = L.heapEnd then 0 else a) post := by
    intro post
    induction post with
    | nil =>
        intro a _ ht
        rw [if_pos (tiles_nil.mp ht)]
        rfl
    | cons b post ih =>
        rintro a hp ⟨rfl, ht⟩
        have hb := hp b (by simp)
        have hbd := hs.bounds hb
        have h0 := freeRamEnd_pos L
        rw [if_neg (by unfold blockSize at hbd; omega)]
        refine ⟨rfl, by omega, ?_⟩
        rw [hs.next b hb]
        exact ih _ (fun c hc => hp c (by simp [hc])) ht
  have := key bs L.freeRamEnd (fun _ hb => hb) hs.tiles
  rwa [if_neg hlt, ← hs.head] at this

/-- `heap_init` makes one free block of the whole heap. -/
theorem heapInit (h : Heap) (L : Layout) :
    (h.heapInit L).Shape L [L.freeRamEnd] ∧ ∀ q, ¬(h.heapInit L).Busy [L.freeRamEnd] q := by
  have hlt := heapEnd_lt L
  have hal := freeRamEnd_aligned L
  have hend : L.heapEnd = L.freeRamEnd + 0x2000000 := rfl
  obtain ⟨h₀, e₀⟩ : ∃ h₀ : Heap, h₀ = { h with freeList := L.freeRamEnd } := ⟨_, rfl⟩
  have hinit : h.heapInit L = ((h₀.setSize L.freeRamEnd (L.heapEnd - L.freeRamEnd - blockSize)).setNext
      L.freeRamEnd 0).setFree L.freeRamEnd 1 := by
    rw [e₀]
    rfl
  have hhead : (h.heapInit L).freeList = L.freeRamEnd := rfl
  have hsize : (h.heapInit L).size L.freeRamEnd = L.heapEnd - L.freeRamEnd - blockSize := by
    rw [hinit, size_setFree, size_setNext, size_setSize _ _ _ (by omega)]
  have hnext : (h.heapInit L).next L.freeRamEnd = 0 := by
    rw [hinit, next_setFree, next_setNext _ _ _ (by omega)]
  have hfree : (h.heapInit L).free L.freeRamEnd = true := by
    rw [hinit, free_setFree _ _ _ (by omega)]
    rfl
  generalize h.heapInit L = h' at hhead hsize hnext hfree ⊢
  unfold blockSize at hsize
  refine ⟨⟨⟨rfl, ?_⟩, hhead, ?_, ?_⟩, ?_⟩
  · rw [tiles_nil, hsize]
    unfold blockSize
    omega
  · intro b hb
    rw [List.mem_singleton.mp hb, hnext, hsize, if_pos (by unfold blockSize; omega)]
  · intro b hb
    rw [List.mem_singleton.mp hb, hsize]
    omega
  · rintro q ⟨hq, hqf⟩
    rw [List.mem_singleton.mp hq, hfree] at hqf
    cases hqf

/-- What `malloc` does: nothing, when no block is large enough; otherwise one more block is taken, and the
bytes of the ones that were are left alone. -/
theorem malloc (hs : h.Shape L bs) (n : Nat) :
    ∃ p h' bs', h.malloc L n = .ok (p, h') ∧ h'.Shape L bs' ∧
      ((p = 0 ∧ h' = h ∧ bs' = bs) ∨ ∃ b, p = b + blockSize ∧ ¬h.Busy bs b ∧ align8 n ≤ h'.size b ∧
        (∀ q, h'.Busy bs' q ↔ q = b ∨ h.Busy bs q) ∧
        ∀ q, h.Busy bs q → ∀ x, q ≤ x → x < q + blockSize + h.size q → h'.mem x = h.mem x) := by
  have hlt := heapEnd_lt L
  have hlen := hs.tiles.length_le
  have hfuel : bs.length < maxBlocks L + 1 := by
    rw [maxBlocks, Nat.lt_succ_iff, Nat.le_div_iff_mul_le (by decide)]
    rw [Nat.mul_comm]
    omega
  have hfind := hs.findBlock (n := align8 n) (fun _ hb => hb) hs.tiles hfuel
  rw [if_neg (show L.freeRamEnd ≠ L.heapEnd by unfold Layout.heapEnd; omega), ← hs.head] at hfind
  rcases hfind with hnone | ⟨b, hb, hfound, hfree, hle⟩
  · refine ⟨0, h, bs, ?_, hs, .inl ⟨rfl, rfl, rfl⟩⟩
    simp only [Heap.malloc, hnone, ok_bind, if_true]
  · obtain ⟨hge, hend, -⟩ := hs.bounds hb
    have h0 := freeRamEnd_pos L
    have h8 : 8 ∣ align8 n := Nat.dvd_mul_left _ _
    have hmod : (align8 n + blockSize + 8) % 2 ^ 64 = align8 n + blockSize + 8 :=
      Nat.mod_eq_of_lt (by unfold blockSize at *; omega)
    have hnb : ¬h.Busy bs b := fun hq => hq.not_free hfree rfl
    -- the block is split, or taken as it is
    obtain ⟨h₁, bs₁, he, hs₁, hb₁, hsz₁, hfree₁, hbusy₁, hmem₁⟩ : ∃ h₁ bs₁,
        (if h.size b ≥ (align8 n + blockSize + 8) % 2 ^ 64 then h.splitBlock b (align8 n) else h) = h₁ ∧
          h₁.Shape L bs₁ ∧ b ∈ bs₁ ∧ align8 n ≤ h₁.size b ∧ h₁.free b = true ∧
          (∀ q, h₁.Busy bs₁ q ↔ h.Busy bs q) ∧
          ∀ x, x < b ∨ b + blockSize + h.size b ≤ x → h₁.mem x = h.mem x := by
      rw [hmod]
      by_cases hsplit : h.size b ≥ align8 n + blockSize + 8
      · obtain ⟨bs₁, hs₁, hb₁, hsz₁, hfree₁, hbusy₁, hmem₁⟩ := hs.split hb hfree h8 hsplit
        exact ⟨_, bs₁, if_pos hsplit, hs₁, hb₁, hsz₁.ge, hfree₁, hbusy₁, hmem₁⟩
      · exact ⟨h, bs, if_neg hsplit, hs, hb, hle, hfree, fun _ => Iff.rfl, fun _ _ => rfl⟩
    refine ⟨b + blockSize, h₁.setFree b 0, bs₁, ?_, hs₁.setFree hb₁ 0, .inr ⟨b, rfl, hnb, ?_, fun q => ?_, ?_⟩⟩
    · simp only [Heap.malloc, hfound, ok_bind, if_neg (show b ≠ 0 by omega), he]
    · rw [size_setFree]
      exact hsz₁
    · constructor
      · rintro ⟨hq, hqf⟩
        by_cases hqb : q = b
        · exact .inl hqb
        · rw [hs₁.free_setFree_of_ne hb₁ hq hqb] at hqf
          exact .inr ((hbusy₁ q).mp ⟨hq, hqf⟩)
      · rintro (rfl | hq)
        · exact ⟨hb₁, free_setFree _ _ _ (by omega)⟩
        · have hq₁ := (hbusy₁ q).mpr hq
          exact ⟨hq₁.1, (hs₁.free_setFree_of_ne hb₁ hq₁.1 (hq.not_free hfree)).trans hq₁.2⟩
    · intro q hq x hqx hxq
      have hd := hs.tiles.disjoint hq.1 hb (hq.not_free hfree)
      rw [setFree_outside (by omega), hmem₁ x (by omega)]

/-- What `free` does: the block is no longer taken, and outside its header nothing is written. -/
theorem release (hs : h.Shape L bs) (hb : h.Busy bs b) :
    ∃ bs', (h.release (b + blockSize)).Shape L bs' ∧
      (∀ q, (h.release (b + blockSize)).Busy bs' q ↔ h.Busy bs q ∧ q ≠ b) ∧
      ∀ x, x < b ∨ b + blockSize ≤ x → (h.release (b + blockSize)).mem x = h.mem x := by
  have hlt := heapEnd_lt L
  obtain ⟨-, hend, -⟩ := hs.bounds hb.1
  have hmod : (b + blockSize + (2 ^ 64 - blockSize)) % 2 ^ 64 = b := by unfold blockSize at *; omega
  have hne : b + blockSize ≠ 0 := by unfold blockSize; omega
  have hs₁ := hs.setFree hb.1 1
  have hmem₁ : ∀ x, x < b ∨ b + blockSize ≤ x → (h.setFree b 1).mem x = h.mem x := fun x hx =>
    setFree_outside hx
  have hbusy₁ : ∀ q, (h.setFree b 1).Busy bs q ↔ h.Busy bs q ∧ q ≠ b := by
    intro q
    by_cases hqb : q = b
    · subst hqb
      refine iff_of_false (fun hq => ?_) fun hq => hq.2 rfl
      exact hq.not_free (free_setFree _ _ _ (by omega)) rfl
    · simp only [Busy, ne_eq, hqb, not_false_eq_true, and_true]
      exact and_congr_right fun hq => by rw [hs.free_setFree_of_ne hb.1 hq hqb]
  have heq : h.release (b + blockSize) =
      if (h.setFree b 1).next b ≠ 0 && (h.setFree b 1).free ((h.setFree b 1).next b) then
        (h.setFree b 1).coalesce b else h.setFree b 1 := by
    simp only [Heap.release, if_neg hne, hmod]
  rw [heq]
  generalize h.setFree b 1 = h₁ at hs₁ hmem₁ hbusy₁ ⊢
  split
  · rename_i hcond
    simp only [Bool.and_eq_true, decide_eq_true_eq] at hcond
    obtain ⟨bs', hs', hbusy', hmem'⟩ := hs₁.coalesce hb.1 hcond.1 hcond.2
    exact ⟨bs', hs', fun q => (hbusy' q).trans (hbusy₁ q), fun x hx => (hmem' x hx).trans (hmem₁ x hx)⟩
  · exact ⟨bs, hs₁, hbusy₁, hmem₁⟩

/-- A store outside the headers changes no block. -/
theorem write (hs : h.Shape L bs) (hx : ∀ b ∈ bs, x < b ∨ b + blockSize ≤ x) (v : UInt8) :
    ({ h with mem := Function.update h.mem x v } : Heap).Shape L bs ∧
      ∀ q, ({ h with mem := Function.update h.mem x v } : Heap).Busy bs q ↔ h.Busy bs q := by
  obtain ⟨h', eh'⟩ : ∃ h' : Heap, h' = { h with mem := Function.update h.mem x v } := ⟨_, rfl⟩
  have hsame : ∀ c ∈ bs, Same h h' c := fun c hc => .of_mem fun y h1 h2 => by
    have := hx c hc
    rw [eh']
    exact Function.update_of_ne (by omega) _ _
  have hhead : h'.freeList = L.freeRamEnd := by
    rw [eh']
    exact hs.head
  rw [← eh']
  refine ⟨⟨hs.tiles.congr fun c hc => (hsame c hc).size, hhead, fun c hc => ?_, fun c hc => ?_⟩, fun q => ?_⟩
  · rw [(hsame c hc).next, (hsame c hc).size]
    exact hs.next c hc
  · rw [(hsame c hc).size]
    exact hs.sizes c hc
  · exact and_congr_right fun hq => by rw [(hsame q hq).free]

end Shape

/-- The bytes behind the header of the block at `ptr`. -/
def payload (h : Heap) (ptr : Nat) : Nat := h.size (ptr - blockSize)

end Heap

/-! ## Runs -/

/-- The heap, with the pointers that `malloc` has returned and that are not freed since. -/
structure HeapUse where
  heap : Heap
  outstanding : Finset Nat

/-- A call of `heap.c`, or a store by a caller. -/
inductive HeapCall
  /-- `malloc(n)`, which returned `p` -/
  | malloc (n p : Nat)
  | free (p : Nat)
  | write (a : Nat) (v : UInt8)
  deriving Repr, DecidableEq

inductive HeapStep (L : Layout) : HeapUse → HeapCall → HeapUse → Prop
  | malloc {u : HeapUse} {n p : Nat} {h : Heap} : n < 2 ^ 64 → u.heap.malloc L n = .ok (p, h) →
      HeapStep L u (.malloc n p) ⟨h, if p = 0 then u.outstanding else insert p u.outstanding⟩
  | free {u : HeapUse} {p : Nat} : p = 0 ∨ p ∈ u.outstanding →
      HeapStep L u (.free p) ⟨u.heap.release p, u.outstanding.erase p⟩
  | write {u : HeapUse} {a : Nat} {v : UInt8} :
      (∃ p ∈ u.outstanding, p ≤ a ∧ a < p + u.heap.payload p) ∨ a < L.freeRamEnd ∨ L.heapEnd ≤ a →
      HeapStep L u (.write a v)
        { u with heap := { u.heap with mem := Function.update u.heap.mem a v } }

namespace HeapUse

variable {L : Layout} {u u' : HeapUse} {c : HeapCall} {bs : List Nat} {l : List HeapCall}

/-- The blocks fill the heap, and the allocations that are out are the blocks that are not free. -/
structure Inv (L : Layout) (u : HeapUse) (bs : List Nat) : Prop where
  shape : u.heap.Shape L bs
  out : ∀ p, p ∈ u.outstanding ↔ ∃ b, u.heap.Busy bs b ∧ p = b + blockSize

/-- The allocations that a call does not free stay out, with their size and their bytes. -/
def Kept (u : HeapUse) (c : HeapCall) (u' : HeapUse) : Prop :=
  ∀ q ∈ u.outstanding, c ≠ .free q → q ∈ u'.outstanding ∧ u'.heap.payload q = u.heap.payload q ∧
    ∀ x, q ≤ x → x < q + u.heap.payload q → (∀ v, c ≠ .write x v) → u'.heap.mem x = u.heap.mem x

theorem Inv.busy (hi : Inv L u bs) {p : Nat} (hp : p ∈ u.outstanding) :
    u.heap.Busy bs (p - blockSize) ∧ p = p - blockSize + blockSize ∧ p ≠ 0 := by
  obtain ⟨b, hb, rfl⟩ := (hi.out p).mp hp
  rw [Nat.add_sub_cancel]
  exact ⟨hb, rfl, by unfold blockSize; omega⟩

/-- One call keeps the invariant. -/
theorem Inv.step (hi : Inv L u bs) (h : HeapStep L u c u') : ∃ bs', Inv L u' bs' ∧ Kept u c u' := by
  cases h with
  | @malloc n p h' hn hm =>
      obtain ⟨p', h'', bs', hm', hs', hor⟩ := hi.shape.malloc n
      rw [hm] at hm'
      cases hm'
      refine ⟨bs', ?_⟩
      rcases hor with ⟨rfl, rfl, rfl⟩ | ⟨b, rfl, hnb, -, hbusy, hmem⟩
      · exact ⟨⟨hs', hi.out⟩, fun q hq _ => ⟨hq, rfl, fun _ _ _ _ => rfl⟩⟩
      · have hne : b + blockSize ≠ 0 := by unfold blockSize; omega
        rw [if_neg hne]
        refine ⟨⟨hs', fun q => ?_⟩, fun q hq _ => ⟨Finset.mem_insert_of_mem hq, ?_, fun x hqx hxq _ => ?_⟩⟩
        · rw [Finset.mem_insert, hi.out]
          constructor
          · rintro (rfl | ⟨d, hd, rfl⟩)
            · exact ⟨b, (hbusy b).mpr (.inl rfl), rfl⟩
            · exact ⟨d, (hbusy d).mpr (.inr hd), rfl⟩
          · rintro ⟨d, hd, rfl⟩
            rcases (hbusy d).mp hd with rfl | hd
            · exact .inl rfl
            · exact .inr ⟨d, hd, rfl⟩
        · obtain ⟨hb, -, -⟩ := hi.busy hq
          exact (Heap.Same.of_mem fun x h1 h2 => hmem _ hb x h1 (by omega)).size
        · obtain ⟨hb, hqe, -⟩ := hi.busy hq
          unfold Heap.payload at hxq
          exact hmem _ hb x (by omega) (by omega)
  | @free p hp =>
      rcases hp with rfl | hp
      · refine ⟨bs, ⟨hi.shape, fun q => ?_⟩, fun q hq _ => ⟨?_, rfl, fun _ _ _ _ => rfl⟩⟩
        · rw [Finset.mem_erase, hi.out]
          exact ⟨fun hq => hq.2, fun hq => ⟨(hi.busy ((hi.out q).mpr hq)).2.2, hq⟩⟩
        · exact Finset.mem_erase.mpr ⟨(hi.busy hq).2.2, hq⟩
      · obtain ⟨b, hb, rfl⟩ := (hi.out p).mp hp
        obtain ⟨bs', hs', hbusy, hmem⟩ := hi.shape.release hb
        generalize u.heap.release (b + blockSize) = h' at hs' hbusy hmem ⊢
        refine ⟨bs', ⟨hs', fun q => ?_⟩, fun q hq hne => ?_⟩
        · rw [Finset.mem_erase, hi.out]
          constructor
          · rintro ⟨hne, d, hd, rfl⟩
            exact ⟨d, (hbusy d).mpr ⟨hd, fun he => hne (by rw [he])⟩, rfl⟩
          · rintro ⟨d, hd, rfl⟩
            obtain ⟨hd, hdb⟩ := (hbusy d).mp hd
            exact ⟨fun he => hdb (Nat.add_right_cancel he), d, hd, rfl⟩
        · obtain ⟨hq', hqe, -⟩ := hi.busy hq
          have hqb : q - blockSize ≠ b := fun he => hne (by rw [hqe, he])
          have hd := hi.shape.tiles.disjoint hq'.1 hb.1 hqb
          refine ⟨Finset.mem_erase.mpr ⟨fun he => hne (by rw [he]), hq⟩, ?_, fun x hqx hxq _ => ?_⟩
          · exact (Heap.Same.of_mem fun x h1 h2 => hmem x (by omega)).size
          · unfold Heap.payload at hxq
            exact hmem x (by omega)
  | @write a v ha =>
      have hout : ∀ b ∈ bs, a < b ∨ b + blockSize ≤ a := by
        intro b hb
        rcases ha with ⟨p, hp, hpa, hap⟩ | ha
        · obtain ⟨hq, hqe, -⟩ := hi.busy hp
          unfold Heap.payload at hap
          by_cases hbq : b = p - blockSize
          · omega
          · have hd := hi.shape.tiles.disjoint hb hq.1 hbq
            omega
        · have hbd := hi.shape.bounds hb
          omega
      obtain ⟨hs', hbusy⟩ := hi.shape.write hout v
      refine ⟨bs, ⟨hs', fun q => ?_⟩, fun q hq _ => ⟨hq, ?_, fun x _ _ hne => ?_⟩⟩
      · rw [hi.out]
        exact exists_congr fun b => and_congr_left fun _ => (hbusy b).symm
      · have := hout _ (hi.busy hq).1.1
        exact (Heap.Same.of_mem fun x h1 h2 => Function.update_of_ne (by omega) _ _).size
      · exact Function.update_of_ne (fun he => hne v (by rw [he])) _ _

theorem Inv.boot (L : Layout) (h : Heap) : Inv L ⟨h.heapInit L, ∅⟩ [L.freeRamEnd] := by
  obtain ⟨hs, hbusy⟩ := Heap.Shape.heapInit h L
  exact ⟨hs, fun p => iff_of_false (Finset.notMem_empty p) fun ⟨b, hb, _⟩ => hbusy b hb⟩

theorem Inv.run (hi : Inv L u bs) (h : Run (HeapStep L) u l u') : ∃ bs', Inv L u' bs' :=
  h.invariant (I := fun u => ∃ bs, Inv L u bs) (fun _ _ _ ⟨_, hi⟩ hs => by
    obtain ⟨bs', hi', -⟩ := hi.step hs
    exact ⟨bs', hi'⟩) ⟨bs, hi⟩

/-- The allocations that are out are aligned, and their bytes are disjoint. -/
theorem Inv.disjoint (hi : Inv L u bs) : (∀ p ∈ u.outstanding, 8 ∣ p) ∧ ∀ p ∈ u.outstanding,
    ∀ q ∈ u.outstanding, p ≠ q → p + u.heap.payload p ≤ q ∨ q + u.heap.payload q ≤ p := by
  constructor
  · intro p hp
    obtain ⟨hb, hpe, -⟩ := hi.busy hp
    have := (hi.shape.bounds hb.1).2.2
    unfold blockSize at *
    omega
  · intro p hp q hq hne
    obtain ⟨hb, hpe, -⟩ := hi.busy hp
    obtain ⟨hc, hqe, -⟩ := hi.busy hq
    have hd := hi.shape.tiles.disjoint hb.1 hc.1 fun he => hne (by rw [hpe, hqe, he])
    unfold Heap.payload
    omega

end HeapUse

/-- After every run from `heap_init` on, the blocks tile the heap and the ones that are not free are the
allocations that are out. `malloc` returns, and a call leaves the other allocations as they are. -/
theorem heapRun_tiles (L : Layout) (h₀ : Heap) {l : List HeapCall} {u : HeapUse}
    (h : Run (HeapStep L) ⟨h₀.heapInit L, ∅⟩ l u) :
    ∃ bs, (u.heap.Shape L bs ∧ LinkedList.Linked u.heap.next 0 u.heap.freeList bs) ∧
      (∀ p, p ∈ u.outstanding ↔ ∃ b, u.heap.Busy bs b ∧ p = b + blockSize) ∧
      (∀ p ∈ u.outstanding, 8 ∣ p) ∧
      (∀ p ∈ u.outstanding, ∀ q ∈ u.outstanding, p ≠ q →
        p + u.heap.payload p ≤ q ∨ q + u.heap.payload q ≤ p) ∧
      (∀ n, ∃ r, u.heap.malloc L n = .ok r) ∧ ∀ c u', HeapStep L u c u' → u.Kept c u' := by
  obtain ⟨bs, hi⟩ := (HeapUse.Inv.boot L h₀).run h
  refine ⟨bs, ⟨hi.shape, hi.shape.linked⟩, hi.out, hi.disjoint.1, hi.disjoint.2, fun n => ?_, fun c u' hc => ?_⟩
  · obtain ⟨p, h', -, hm, -⟩ := hi.shape.malloc n
    exact ⟨_, hm⟩
  · obtain ⟨-, -, hk⟩ := hi.step hc
    exact hk

/-- The calls of `heap_test`: the third allocation gets the block that was freed. -/
theorem heapTest_run :
    ∃ u, Run (HeapStep .kernelMap) ⟨Heap.heapInit ⟨fun _ => 0, 0⟩ .kernelMap, ∅⟩
      [.malloc 64 0x844cb018, .malloc 128 0x844cb070, .free 0x844cb018, .malloc 32 0x844cb018] u := by
  have hcalls : ((Heap.heapInit ⟨fun _ => 0, 0⟩ .kernelMap).malloc .kernelMap 64 >>= fun r =>
      r.2.malloc .kernelMap 128 >>= fun r' => (r'.2.release r.1).malloc .kernelMap 32 >>= fun r'' =>
        Except.ok (r.1, r'.1, r''.1)) = .ok (0x844cb018, 0x844cb070, 0x844cb018) := by decide +kernel
  simp only [bind_eq_ok, Prod.exists, Except.ok.injEq, Prod.mk.injEq] at hcalls
  obtain ⟨p, h₁, e₁, q, h₂, e₂, r, h₃, e₃, rfl, rfl, rfl⟩ := hcalls
  generalize Heap.heapInit ⟨fun _ => 0, 0⟩ .kernelMap = h₀ at e₁ ⊢
  have s₁ : HeapStep .kernelMap ⟨h₀, ∅⟩ (.malloc 64 0x844cb018) ⟨h₁, insert 0x844cb018 ∅⟩ :=
    .malloc (by decide) e₁
  have s₂ : HeapStep .kernelMap ⟨h₁, insert 0x844cb018 ∅⟩ (.malloc 128 0x844cb070)
      ⟨h₂, insert 0x844cb070 (insert 0x844cb018 ∅)⟩ := .malloc (by decide) e₂
  have s₃ : HeapStep .kernelMap ⟨h₂, insert 0x844cb070 (insert 0x844cb018 ∅)⟩ (.free 0x844cb018) _ :=
    .free (.inr (Finset.mem_insert_of_mem (Finset.mem_insert_self _ _)))
  generalize h₂.release 0x844cb018 = h₂' at e₃ s₃
  have s₄ := HeapStep.malloc (L := .kernelMap)
    (u := ⟨h₂', (insert 0x844cb070 (insert 0x844cb018 ∅) : Finset Nat).erase 0x844cb018⟩) (by decide) e₃
  exact ⟨_, .cons s₁ (.cons s₂ (.cons s₃ (.single s₄)))⟩

theorem heapRun_tiles_test :
    ∃ u, Run (HeapStep .kernelMap) ⟨Heap.heapInit ⟨fun _ => 0, 0⟩ .kernelMap, ∅⟩
        [.malloc 64 0x844cb018, .malloc 128 0x844cb070, .free 0x844cb018, .malloc 32 0x844cb018] u ∧
      ∃ bs, u.heap.Shape .kernelMap bs ∧ ∀ p ∈ u.outstanding,
        ∀ q ∈ u.outstanding, p ≠ q → p + u.heap.payload p ≤ q ∨ q + u.heap.payload q ≤ p := by
  obtain ⟨u, hrun⟩ := heapTest_run
  obtain ⟨bs, ⟨hs, -⟩, -, -, hd, -⟩ := heapRun_tiles .kernelMap _ hrun
  exact ⟨u, hrun, bs, hs, hd⟩

end RiscvOs
