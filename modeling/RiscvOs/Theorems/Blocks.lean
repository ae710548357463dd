import RiscvOs.Lib.FirstFit
import RiscvOs.Theorems.Heap

/-!
# The kernel heap serves the first block that fits

On the list of its blocks, `malloc` is a request to the first free block that is large enough, and `free` is the
release of a block. So `malloc` fails only where no block is large enough, and callers that free in the reverse
order of their requests leave the heap as `heap_init` has made it.
-/

namespace RiscvOs

open ByteMem Tiling FirstFit Lts Outcome

namespace Heap

variable {L : Layout} {h h' : Heap} {a b c e n p fuel : Nat} {bs bs' pre post l : List Nat}

/-- The blocks at the addresses of the list. -/
def blocks (h : Heap) (bs : List Nat) : List Block := bs.map fun b => ⟨h.size b, h.free b⟩

@[simp] theorem blocks_nil : h.blocks [] = [] := rfl

@[simp] theorem blocks_cons : h.blocks (b :: bs) = ⟨h.size b, h.free b⟩ :: h.blocks bs := rfl

@[simp] theorem blocks_append : h.blocks (pre ++ post) = h.blocks pre ++ h.blocks post := List.map_append

theorem blocks_congr (hs : ∀ b ∈ bs, h'.size b = h.size b ∧ h'.free b = h.free b) : h'.blocks bs = h.blocks bs :=
  List.map_congr_left fun b hb => by rw [(hs b hb).1, (hs b hb).2]

theorem tiles_span (ht : Tiles blockSize h.size a bs e) : e = a + span blockSize (h.blocks bs) := by
  induction bs generalizing a with
  | nil => exact (tiles_nil.mp ht).symm
  | cons b bs ih =>
      obtain ⟨rfl, ht⟩ := ht
      rw [ih ht, blocks_cons, span_cons]
      dsimp only
      omega

namespace Shape

/-- A block lies behind the bytes of the blocks in front of it. -/
theorem address (hs : h.Shape L (pre ++ b :: post)) : b = L.freeRamEnd + span blockSize (h.blocks pre) :=
  tiles_span (tiles_middle.mp hs.tiles).1

theorem span_eq (hs : h.Shape L bs) : L.heapEnd = L.freeRamEnd + span blockSize (h.blocks bs) := tiles_span hs.tiles

/-- The loop of `malloc` stops at the block that the request goes to. -/
theorem findBlock_eq (hs : h.Shape L bs) (hp : ∀ b ∈ post, b ∈ bs) (ht : Tiles blockSize h.size a post L.heapEnd)
    (hf : post.length < fuel) : h.findBlock n fuel (if a = L.heapEnd then 0 else a) =
      .ok (((alloc blockSize 8 n a (h.blocks post)).map Prod.fst).getD 0) := by
  induction post generalizing a fuel with
  | nil =>
      obtain ⟨fuel, rfl⟩ := Nat.exists_eq_succ_of_ne_zero (Nat.ne_zero_of_lt hf)
      rw [if_pos (tiles_nil.mp ht)]
      rfl
  | cons b post ih =>
      obtain ⟨fuel, rfl⟩ := Nat.exists_eq_succ_of_ne_zero (Nat.ne_zero_of_lt hf)
      obtain ⟨rfl, ht⟩ := ht
      have hb := hp b (by simp)
      have hbd := hs.bounds hb
      have h0 := freeRamEnd_pos L
      rw [if_neg (by unfold blockSize at hbd; omega)]
      unfold Heap.findBlock
      rw [if_neg (by omega), blocks_cons, alloc]
      by_cases hc : h.free b = true ∧ n ≤ h.size b
      · rw [if_pos hc, if_pos (by simpa using hc)]
        rfl
      · rw [if_neg hc, if_neg (by simpa using hc), hs.next b hb,
          ih (fun c hc => hp c (by simp [hc])) ht (by simpa using hf),
          Option.map_map]
        rfl

theorem findBlock_head (hs : h.Shape L bs) : h.findBlock n (maxBlocks L + 1) h.freeList =
    .ok (((alloc blockSize 8 n L.freeRamEnd (h.blocks bs)).map Prod.fst).getD 0) := by
  have hlen := hs.tiles.length_le
  have hfuel : bs.length < maxBlocks L + 1 := by
    rw [maxBlocks, Nat.lt_succ_iff, Nat.le_div_iff_mul_le (by decide), Nat.mul_comm]
    omega
  have hfind := hs.findBlock_eq (n := n) (fun _ hb => hb) hs.tiles hfuel
  rw [if_neg (show L.freeRamEnd ≠ L.heapEnd by unfold Layout.heapEnd; omega)] at hfind
  rwa [hs.head]

/-- The blocks around the one that is split. -/
theorem split_blocks (hs : h.Shape L (pre ++ b :: post)) (hfree : h.free b = true) (hn : 8 ∣ n)
    (hle : n + blockSize + 8 ≤ h.size b) : ∃ y, (h.splitBlock b n).Shape L (pre ++ b :: y :: post) ∧
      (h.splitBlock b n).blocks pre = h.blocks pre ∧ (h.splitBlock b n).size b = n ∧
        (h.splitBlock b n).blocks (y :: post) = ⟨h.size b - n - blockSize, true⟩ :: h.blocks post := by
  have hb : b ∈ pre ++ b :: post := by simp
  have hlt := heapEnd_lt L
  obtain ⟨-, hend, -⟩ := hs.bounds hb
  obtain ⟨bs', hs', -, -, -, -, hout⟩ := hs.split hb hfree hn hle
  obtain ⟨hsz, -, -, hszy, -, hfry, -⟩ := splitBlock_fields (h := h) (b := b) (n := n) (by omega) (by omega)
  obtain ⟨hpre, hpost⟩ := hs.middle
  have hsame : ∀ c ∈ pre ++ b :: post, c ≠ b → Same h (h.splitBlock b n) c := fun c hc hne => hs.same hb hc hne hout
  have htiles : Tiles blockSize (h.splitBlock b n).size L.freeRamEnd (pre ++ b :: (b + blockSize + n) :: post)
      L.heapEnd :=
    hs.tiles.split (by rw [hsz]) (by rw [hsz, hszy]; omega) (fun c hc => (hsame c (by simp [hc]) (hpre c hc)).size)
      fun c hc => (hsame c (by simp [hc]) (hpost c hc)).size
  obtain rfl := hs'.tiles.unique (by decide) htiles
  refine ⟨b + blockSize + n, hs', blocks_congr fun c hc => ?_, hsz, ?_⟩
  · have := hsame c (by simp [hc]) (hpre c hc)
    exact ⟨this.size, this.free⟩
  · rw [blocks_cons, hszy, hfry]
    refine congrArg _ (blocks_congr fun c hc => ?_)
    have := hsame c (by simp [hc]) (hpost c hc)
    exact ⟨this.size, this.free⟩

/-- The blocks around the one whose flag is set. -/
theorem setFree_blocks (hs : h.Shape L (pre ++ b :: post)) {v : Nat} (hv : v < 256) :
    (h.setFree b v).blocks (pre ++ b :: post) = h.blocks pre ++ ⟨h.size b, decide (v ≠ 0)⟩ :: h.blocks post := by
  have hb : b ∈ pre ++ b :: post := by simp
  obtain ⟨hpre, hpost⟩ := hs.middle
  have hsame : ∀ c ∈ pre ++ b :: post, c ≠ b → Same h (h.setFree b v) c := fun c hc hne =>
    hs.same hb hc hne fun x hx => setFree_outside (by omega)
  have hold : ∀ {l : List Nat}, (∀ c ∈ l, c ∈ pre ++ b :: post ∧ c ≠ b) → (h.setFree b v).blocks l = h.blocks l :=
    fun hl => blocks_congr fun c hc => by
      have := hsame c (hl c hc).1 (hl c hc).2
      exact ⟨this.size, this.free⟩
  rw [blocks_append, blocks_cons, size_setFree, free_setFree _ _ _ hv, hold fun c hc => ⟨by simp [hc], hpre c hc⟩,
    hold fun c hc => ⟨by simp [hc], hpost c hc⟩]

/-- `malloc` is a request. -/
theorem malloc_alloc (hs : h.Shape L bs) (hm : h.malloc L n = .ok (p, h')) :
    (p = 0 ∧ h' = h ∧ alloc blockSize 8 (align8 n) L.freeRamEnd (h.blocks bs) = none) ∨
      ∃ b bs', p = b + blockSize ∧ h'.Shape L bs' ∧
        alloc blockSize 8 (align8 n) L.freeRamEnd (h.blocks bs) = some (b, h'.blocks bs') := by
  have hlt := heapEnd_lt L
  simp only [Heap.malloc, hs.findBlock_head, ok_bind] at hm
  cases ha : alloc blockSize 8 (align8 n) L.freeRamEnd (h.blocks bs) with
  | none =>
      rw [ha, Option.map_none, Option.getD_none, if_pos rfl, Except.ok.injEq, Prod.mk.injEq] at hm
      exact .inl ⟨hm.1.symm, hm.2.symm, rfl⟩
  | some x =>
      obtain ⟨b, blks⟩ := x
      obtain ⟨bpre, blk, bpost, hsplit, hbaddr, hfree, hn, -, rfl⟩ := alloc_eq_some ha
      obtain ⟨pre, rest, rfl, rfl, hrest⟩ := List.map_eq_append_iff.mp hsplit
      obtain ⟨b', post, rfl, rfl, rfl⟩ := List.map_eq_cons_iff.mp hrest
      obtain rfl : b' = b := hs.address.trans hbaddr.symm
      have hb : b' ∈ pre ++ b' :: post := by simp
      obtain ⟨hge, hend, -⟩ := hs.bounds hb
      have h0 := freeRamEnd_pos L
      have hle : align8 n ≤ h.size b' := hn
      have hmod : (align8 n + blockSize + 8) % 2 ^ 64 = align8 n + blockSize + 8 :=
        Nat.mod_eq_of_lt (by unfold blockSize at *; omega)
      rw [ha, Option.map_some, Option.getD_some, if_neg (show b' ≠ 0 by omega), hmod, Except.ok.injEq, Prod.mk.injEq]
        at hm
      dsimp only at hm
      obtain ⟨rfl, rfl⟩ := hm
      refine .inr ⟨b', ?_⟩
      unfold cut
      by_cases hsplit : align8 n + blockSize + 8 ≤ h.size b'
      · obtain ⟨y, hs₁, hpre, hsize, hpost⟩ :=
          hs.split_blocks hfree (show 8 ∣ align8 n from Nat.dvd_mul_left _ _) hsplit
        refine ⟨pre ++ b' :: y :: post, rfl, ?_, ?_⟩
        · rw [if_pos hsplit]
          exact hs₁.setFree (by simp) 0
        · rw [if_pos hsplit, if_pos hsplit, hs₁.setFree_blocks (by decide), hpre, hsize, hpost]
          rfl
      · refine ⟨pre ++ b' :: post, rfl, ?_, ?_⟩
        · rw [if_neg hsplit]
          exact hs.setFree hb 0
        · rw [if_neg hsplit, if_neg hsplit, hs.setFree_blocks (by decide)]
          rfl

/-- The blocks around one that takes in the next one. -/
theorem coalesce_blocks (hs : h.Shape L (pre ++ b :: c :: post)) (hfree : h.free c = true) :
    (h.coalesce b).Shape L (pre ++ b :: post) ∧ (h.coalesce b).blocks (pre ++ b :: post) =
      h.blocks pre ++ ⟨h.size b + blockSize + h.size c, h.free b⟩ :: h.blocks post := by
  have hb : b ∈ pre ++ b :: c :: post := by simp
  have hlt := heapEnd_lt L
  have h0 := freeRamEnd_pos L
  obtain ⟨hge, -, -⟩ := hs.bounds hb
  obtain ⟨-, hendc, -⟩ := hs.bounds (show c ∈ pre ++ b :: c :: post by simp)
  obtain rfl : c = b + blockSize + h.size b := (tiles_middle.mp hs.tiles).2.1
  have hnext : h.next b = b + blockSize + h.size b := by
    rw [hs.next b hb, if_neg (by unfold blockSize at *; omega)]
  obtain ⟨hsz, -, hfr, hmem⟩ := coalesce_fields (h := h) (b := b) (by rw [hnext]; unfold blockSize at *; omega)
    (.inr (by rw [hnext]; omega))
  rw [hnext] at hsz
  obtain ⟨bs', hs', -⟩ := hs.coalesce hb (by rw [hnext]; omega) (by rw [hnext]; exact hfree)
  obtain ⟨hpre, hpost⟩ := hs.middle
  have hsame : ∀ d ∈ pre ++ b :: (b + blockSize + h.size b) :: post, d ≠ b → Same h (h.coalesce b) d :=
    fun d hd hne => hs.same hb hd hne fun x hx => hmem x (by omega)
  have htiles : Tiles blockSize (h.coalesce b).size L.freeRamEnd (pre ++ b :: post) L.heapEnd :=
    hs.tiles.merge (by omega) (fun d hd => (hsame d (by simp [hd]) (hpre d hd)).size)
      fun d hd => (hsame d (by simp [hd]) (hpost d (by simp [hd]))).size
  obtain rfl := hs'.tiles.unique (by decide) htiles
  refine ⟨hs', ?_⟩
  have hold : ∀ {l : List Nat}, (∀ d ∈ l, d ∈ pre ++ b :: (b + blockSize + h.size b) :: post ∧ d ≠ b) →
      (h.coalesce b).blocks l = h.blocks l := fun hl => blocks_congr fun d hd => by
    have := hsame d (hl d hd).1 (hl d hd).2
    exact ⟨this.size, this.free⟩
  rw [blocks_append, blocks_cons, hsz, hfr, hold fun d hd => ⟨by simp [hd], hpre d hd⟩,
    hold fun d hd => ⟨by simp [hd], hpost d (by simp [hd])⟩, Nat.add_assoc (h.size b)]

/-- `free` is a release. -/
theorem release_release (hs : h.Shape L bs) (hb : b ∈ bs) : ∃ bs', (h.release (b + blockSize)).Shape L bs' ∧
    (h.release (b + blockSize)).blocks bs' = FirstFit.release blockSize b L.freeRamEnd (h.blocks bs) := by
  have hlt := heapEnd_lt L
  have h0 := freeRamEnd_pos L
  obtain ⟨hge, hend, -⟩ := hs.bounds hb
  obtain ⟨pre, post, rfl⟩ := List.mem_iff_append.mp hb
  have hmod : (b + blockSize + (2 ^ 64 - blockSize)) % 2 ^ 64 = b := by unfold blockSize at *; omega
  have heq : h.release (b + blockSize) =
      if (h.setFree b 1).next b ≠ 0 && (h.setFree b 1).free ((h.setFree b 1).next b) then
        (h.setFree b 1).coalesce b else h.setFree b 1 := by
    simp only [Heap.release, if_neg (show b + blockSize ≠ 0 by omega), hmod]
  have hs₁ := hs.setFree hb 1
  have hblocks := hs.setFree_blocks (v := 1) (by decide)
  have hrel : FirstFit.release blockSize (L.freeRamEnd + span blockSize (h.blocks pre)) L.freeRamEnd
      (h.blocks pre ++ ⟨h.size b, h.free b⟩ :: h.blocks post) =
        h.blocks pre ++ join blockSize ⟨h.size b, h.free b⟩ (h.blocks post) := release_middle (by decide)
  rw [← hs.address] at hrel
  rw [heq, blocks_append, blocks_cons, hrel]
  generalize hg : h.setFree b 1 = h₁ at hs₁ hblocks ⊢
  rw [blocks_append, blocks_cons] at hblocks
  obtain ⟨hpre, hrest⟩ := List.append_inj hblocks (by simp [blocks])
  rw [List.cons.injEq, Block.mk.injEq] at hrest
  obtain ⟨⟨hsize, hfreeb⟩, hpost⟩ := hrest
  cases post with
  | nil =>
      have hnext : h₁.next b = 0 := by rw [hs₁.next b hb, if_pos (tiles_nil.mp (tiles_middle.mp hs₁.tiles).2)]
      rw [if_neg (by simp [hnext])]
      exact ⟨pre ++ [b], hs₁, by rw [blocks_append, blocks_cons, hpre, hsize, hfreeb]; rfl⟩
  | cons c post =>
      have hc : c = b + blockSize + h₁.size b := (tiles_middle.mp hs₁.tiles).2.1
      have hcend := (hs₁.bounds (show c ∈ pre ++ b :: c :: post by simp)).2.1
      have hnext : h₁.next b = c := by rw [hs₁.next b hb, if_neg (by unfold blockSize at *; omega), hc]
      rw [blocks_cons, blocks_cons, List.cons.injEq, Block.mk.injEq] at hpost
      obtain ⟨⟨hsizec, hfreec⟩, hpost⟩ := hpost
      rw [hnext, hfreec, blocks_cons]
      cases hf : h.free c with
      | true =>
          obtain ⟨hs', hblocks'⟩ := hs₁.coalesce_blocks (hfreec.trans hf)
          rw [if_pos (by simp; omega), join_free rfl]
          exact ⟨pre ++ b :: post, hs', by rw [hblocks', hpre, hsize, hsizec, hfreeb, hpost]; rfl⟩
      | false =>
          rw [if_neg (by simp), join_taken rfl]
          refine ⟨pre ++ b :: c :: post, hs₁, ?_⟩
          rw [blocks_append, blocks_cons, blocks_cons, hpre, hsize, hfreeb, hsizec, hfreec, hpost, hf]
          rfl

/-- The blocks in front of one lie at smaller addresses. -/
theorem mem_pre_iff (hs : h.Shape L (pre ++ b :: post)) (hc : c ∈ pre ++ b :: post) : c ∈ pre ↔ c < b := by
  obtain ⟨h1, h2⟩ := tiles_middle.mp hs.tiles
  constructor
  · intro hc
    have := (h1.inside hc).2
    unfold blockSize at this
    omega
  · intro hlt
    rcases List.mem_append.mp hc with hc | hc
    · exact hc
    rcases List.mem_cons.mp hc with rfl | hc
    · exact absurd hlt (lt_irrefl _)
    · have := (h2.inside hc).1
      omega

end Shape

/-- The answer `p` of a `malloc` of `n` bytes, and the heap after it. -/
structure Served (h : Heap) (bs : List Nat) (n p : Nat) (h' : Heap) : Prop where
  none : p = 0 → h' = h ∧ ∀ b ∈ bs, h.free b = true → h.size b < align8 n
  some : p ≠ 0 → p - blockSize ∈ bs ∧ h.free (p - blockSize) = true ∧
    (∀ c ∈ bs, c < p - blockSize → h.free c = true → h.size c < align8 n) ∧
      align8 n ≤ h'.payload p ∧ h'.payload p < align8 n + blockSize + 8

theorem Shape.served (hs : h.Shape L bs) (hm : h.malloc L n = .ok (p, h')) : h.Served bs n p h' := by
  rcases hs.malloc_alloc hm with ⟨rfl, rfl, ha⟩ | ⟨b, bs', rfl, hs', ha⟩
  · refine ⟨fun _ => ⟨rfl, fun b hb hf => ?_⟩, fun hne => absurd rfl hne⟩
    exact alloc_eq_none.mp ha _ (List.mem_map_of_mem hb) hf
  · refine ⟨fun h0 => absurd h0 (by unfold blockSize; omega), fun _ => ?_⟩
    obtain ⟨bpre, blk, bpost, hsplit, hbaddr, hfree, hn, hsmall, hafter⟩ := alloc_eq_some ha
    obtain ⟨pre, rest, rfl, rfl, hrest⟩ := List.map_eq_append_iff.mp hsplit
    obtain ⟨b', post, rfl, rfl, rfl⟩ := List.map_eq_cons_iff.mp hrest
    obtain rfl : b' = b := hs.address.trans hbaddr.symm
    rw [Nat.add_sub_cancel]
    refine ⟨by simp, hfree, fun c hc hlt hf => ?_, ?_⟩
    · exact hsmall _ (List.mem_map_of_mem ((hs.mem_pre_iff hc).mpr hlt)) hf
    · -- the block has kept its address
      obtain ⟨x, hx, hxn, hcut⟩ : ∃ x, align8 n ≤ x ∧ x < align8 n + blockSize + 8 ∧
          ∃ l, cut blockSize 8 (align8 n) ⟨h.size b', h.free b'⟩ = ⟨x, false⟩ :: l := by
        unfold cut
        split
        · exact ⟨_, Nat.le_refl _, by unfold blockSize; omega, _, rfl⟩
        · rename_i hle
          exact ⟨_, hn, not_le.mp hle, _, rfl⟩
      obtain ⟨l, hcut⟩ := hcut
      rw [hcut] at hafter
      obtain ⟨pre', rest', rfl, hpre', hrest'⟩ := List.map_eq_append_iff.mp hafter
      obtain ⟨d, post', rfl, hd, -⟩ := List.map_eq_cons_iff.mp hrest'
      obtain rfl : d = b' := hs'.address.trans (hbaddr.trans (congrArg (fun l => _ + span blockSize l) hpre'.symm)).symm
      rw [payload, Nat.add_sub_cancel, show h'.size d = x from congrArg Block.size hd]
      exact ⟨hx, hxn⟩

end Heap

namespace HeapUse

variable {L : Layout} {u u' : HeapUse} {x y : HeapUse × List Nat} {c : HeapCall} {bs : List Nat}

/-- A call with the pointers that are out, the last one first: `free` gets the first of them, or NULL. -/
inductive LifoStep (L : Layout) : HeapUse × List Nat → HeapCall → HeapUse × List Nat → Prop
  | malloc {u u' : HeapUse} {n p : Nat} {ps : List Nat} (h : HeapStep L u (.malloc n p) u') :
      LifoStep L (u, ps) (.malloc n p) (u', if p = 0 then ps else p :: ps)
  | free {u u' : HeapUse} {p : Nat} {ps : List Nat} (h : HeapStep L u (.free p) u') :
      LifoStep L (u, p :: ps) (.free p) (u', ps)
  | freeNull {u u' : HeapUse} {ps : List Nat} (h : HeapStep L u (.free 0) u') :
      LifoStep L (u, ps) (.free 0) (u', ps)
  | write {u u' : HeapUse} {a : Nat} {v : UInt8} {ps : List Nat} (h : HeapStep L u (.write a v) u') :
      LifoStep L (u, ps) (.write a v) (u', ps)

/-- All free space lies behind the allocations that are out. -/
structure LifoInv (L : Layout) (x : HeapUse × List Nat) (bs : List Nat) : Prop where
  inv : Inv L x.1 bs
  stacked : Stacked blockSize L.freeRamEnd (x.2.map (· - blockSize)) (x.1.heap.blocks bs)
  pos : 0 ∉ x.2

/-- A caller does not write to a header. -/
theorem Inv.write_blocks (hi : Inv L u bs) {a : Nat} {v : UInt8} (h : HeapStep L u (.write a v) u') :
    u'.heap.blocks bs = u.heap.blocks bs := by
  cases h with
  | write ha =>
      refine Heap.blocks_congr fun b hb => ?_
      have hout : a < b ∨ b + blockSize ≤ a := by
        rcases ha with ⟨p, hp, hpa, hap⟩ | ha
        · obtain ⟨hq, hqe, -⟩ := hi.busy hp
          unfold Heap.payload at hap
          by_cases hbq : b = p - blockSize
          · omega
          · have hd := hi.shape.tiles.disjoint hb hq.1 hbq
            omega
        · have hbd := hi.shape.bounds hb
          omega
      have hsame : Heap.Same u.heap { u.heap with mem := Function.update u.heap.mem a v } b :=
        .of_mem fun z h1 h2 => Function.update_of_ne (by omega) _ _
      exact ⟨hsame.size, hsame.free⟩

/-- One call keeps the free space together. -/
theorem LifoInv.step (hi : LifoInv L x bs) (h : LifoStep L x c y) : ∃ bs', LifoInv L y bs' := by
  cases h with
  | @malloc u u' n p ps h =>
      obtain ⟨bs', hi', -⟩ := hi.inv.step h
      refine ⟨bs', hi', ?_, ?_⟩
      · cases h with
        | malloc hn hm =>
            rcases hi.inv.shape.malloc_alloc hm with ⟨rfl, rfl, -⟩ | ⟨b, bs₁, rfl, hs₁, ha⟩
            · rw [if_pos rfl, hi'.shape.tiles.unique (by decide) hi.inv.shape.tiles]
              exact hi.stacked
            · have hstacked := hi.stacked.alloc ha
              dsimp only
              rw [if_neg (by unfold blockSize; omega), List.map_cons, Nat.add_sub_cancel,
                hi'.shape.tiles.unique (by decide) hs₁.tiles]
              exact hstacked
      · dsimp only
        split
        · exact hi.pos
        · rename_i hp
          rw [List.mem_cons, not_or]
          exact ⟨fun he => hp he.symm, hi.pos⟩
  | @free u u' p ps h =>
      obtain ⟨bs', hi', -⟩ := hi.inv.step h
      obtain ⟨hp0, hpos⟩ := not_or.mp (mt List.mem_cons.mpr hi.pos)
      refine ⟨bs', hi', ?_, hpos⟩
      cases h with
      | free hp =>
          obtain ⟨b, hb, rfl⟩ := (hi.inv.out p).mp (hp.resolve_left fun he => hp0 he.symm)
          obtain ⟨bs₁, hs₁, hrel⟩ := hi.inv.shape.release_release hb.1
          have hstacked := hi.stacked
          rw [List.map_cons, Nat.add_sub_cancel] at hstacked
          have hs' := hi'.shape
          dsimp only at hs' ⊢
          generalize u.heap.release (b + blockSize) = h' at hs' hs₁ hrel ⊢
          obtain rfl := hs'.tiles.unique (by decide) hs₁.tiles
          rw [hrel]
          exact hstacked.release (by decide)
  | @freeNull u u' ps h =>
      obtain ⟨bs', hi', -⟩ := hi.inv.step h
      refine ⟨bs', hi', ?_, hi.pos⟩
      cases h with
      | free hp =>
          have hheap : u.heap.release 0 = u.heap := if_pos rfl
          have hs' := hi'.shape
          dsimp only at hs' ⊢
          rw [hheap] at hs' ⊢
          rw [hs'.tiles.unique (by decide) hi.inv.shape.tiles]
          exact hi.stacked
  | @write u u' a v ps h =>
      obtain ⟨bs', hi', -⟩ := hi.inv.step h
      have hblocks := hi.inv.write_blocks h
      have htiles := hi'.shape.tiles
      have hsizes : ∀ b ∈ bs, u'.heap.size b = u.heap.size b := fun b hb =>
        congrArg Block.size (List.map_inj_left.mp hblocks b hb)
      obtain rfl := htiles.unique (by decide) (hi.inv.shape.tiles.congr hsizes)
      refine ⟨bs', hi', ?_, hi.pos⟩
      show Stacked _ _ _ (u'.heap.blocks bs')
      rw [hblocks]
      exact hi.stacked

theorem LifoInv.boot (L : Layout) (h : Heap) : LifoInv L (⟨h.heapInit L, ∅⟩, []) [L.freeRamEnd] := by
  obtain ⟨hs, hbusy⟩ := Heap.Shape.heapInit h L
  have hfree : (h.heapInit L).free L.freeRamEnd = true := by
    by_contra hf
    exact hbusy L.freeRamEnd ⟨by simp, by simpa using hf⟩
  refine ⟨.boot L h, ⟨[], (h.heapInit L).blocks [L.freeRamEnd], rfl, .nil, .inr ⟨(h.heapInit L).size L.freeRamEnd, ?_⟩⟩,
    by simp⟩
  rw [Heap.blocks_cons, hfree]
  rfl

end HeapUse

/-- Where callers free in the reverse order of their requests, the allocations that are out lie at the beginning of
the heap and the free space is one block behind them, whatever the callers write. When all of them are freed, the
heap is the one free block that `heap_init` has made. -/
theorem heapRun_lifo (L : Layout) (h₀ : Heap) {l : List HeapCall} {u : HeapUse} {ps : List Nat}
    (h : Run (HeapUse.LifoStep L) (⟨h₀.heapInit L, ∅⟩, []) l (u, ps)) :
    (∃ bs, u.heap.Shape L bs ∧
      Stacked blockSize L.freeRamEnd (ps.map (· - blockSize)) (u.heap.blocks bs)) ∧
      (ps = [] → u.heap.Shape L [L.freeRamEnd] ∧ u.heap.free L.freeRamEnd = true) := by
  obtain ⟨bs, hi⟩ := h.invariant (I := fun x => ∃ bs, HeapUse.LifoInv L x bs) (fun _ _ _ ⟨_, hi⟩ hs => hi.step hs)
    ⟨_, .boot L h₀⟩
  refine ⟨⟨bs, hi.inv.shape, hi.stacked⟩, fun hps => ?_⟩
  subst hps
  have hspan := hi.inv.shape.span_eq
  have hsingle := hi.stacked.single (by
    have : L.heapEnd = L.freeRamEnd + 0x2000000 := rfl
    omega)
  obtain ⟨b, rfl, hb⟩ := List.map_eq_singleton_iff.mp hsingle
  have hb' : b = L.freeRamEnd := hi.inv.shape.tiles.1
  rw [hb'] at hb
  exact ⟨hb' ▸ hi.inv.shape, congrArg Block.free hb⟩

/-- Two requests, and the releases in reverse order. -/
theorem heapRun_lifo_two : ∃ u, Run (HeapUse.LifoStep .kernelMap) (⟨Heap.heapInit ⟨fun _ => 0, 0⟩ .kernelMap, ∅⟩, [])
    [.malloc 64 0x844cb018, .malloc 128 0x844cb070, .free 0x844cb070, .free 0x844cb018] (u, []) ∧
      u.heap.Shape .kernelMap [Layout.kernelMap.freeRamEnd] := by
  have hcalls : ((Heap.heapInit ⟨fun _ => 0, 0⟩ .kernelMap).malloc .kernelMap 64 >>= fun r =>
      r.2.malloc .kernelMap 128 >>= fun r' => Except.ok (r.1, r'.1)) = .ok (0x844cb018, 0x844cb070) := by
    decide +kernel
  simp only [bind_eq_ok, Prod.exists, Except.ok.injEq, Prod.mk.injEq] at hcalls
  obtain ⟨p, h₁, e₁, q, h₂, e₂, rfl, rfl⟩ := hcalls
  have hrun : ∃ u, Run (HeapUse.LifoStep .kernelMap) (⟨Heap.heapInit ⟨fun _ => 0, 0⟩ .kernelMap, ∅⟩, [])
      [.malloc 64 0x844cb018, .malloc 128 0x844cb070, .free 0x844cb070, .free 0x844cb018] (u, []) :=
    ⟨_, .cons (.malloc (.malloc (by decide) e₁)) <| .cons (.malloc (.malloc (by decide) e₂)) <|
      .cons (.free (.free (.inr (by simp)))) <| .cons (.free (.free (.inr (by simp)))) .nil⟩
  obtain ⟨u, hrun⟩ := hrun
  exact ⟨u, hrun, ((heapRun_lifo .kernelMap _ hrun).2 rfl).1⟩

end RiscvOs
