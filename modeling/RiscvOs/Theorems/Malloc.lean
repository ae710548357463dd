import RiscvOs.Theorems.Permissions

/-!
# Runs of the heap of a process

The processes allocate, free what they hold and write to what they hold; a block that is not found in the list
comes from `sbrk`, which is a trap. The blocks tile the heap, and each allocation that is out has a block of its
own that is not in the list.
-/

namespace RiscvOs

open ByteMem Outcome Kernel Lts Tiling LinkedList

variable {L : Layout} {fs : Initramfs}

namespace UserHeap

variable {h h' : UserHeap} {a b c v x n brk prev : Nat} {bs fl pre post : List Nat} {fuel : Nat}

/-! ## The fields of a block -/

theorem size_congr (hm : ∀ x, b ≤ x → x < b + 8 → h'.mem x = h.mem x) : h'.size b = h.size b := load64_congr hm

theorem next_congr (hm : ∀ x, b + 8 ≤ x → x < b + 16 → h'.mem x = h.mem x) : h'.next b = h.next b :=
  load64_congr fun x h1 h2 => hm x h1 (by omega)

theorem setSize_outside (hx : x < b ∨ b + 8 ≤ x) : (h.setSize b v).mem x = h.mem x := store64_outside (by omega)

theorem setNext_outside (hx : x < b + 8 ∨ b + 16 ≤ x) : (h.setNext b v).mem x = h.mem x :=
  store64_outside (by omega)

theorem next_lt : h.next b < 2 ^ 64 := load64_lt _ _

section Fields

variable (h b v)

theorem size_setSize (hv : v < 2 ^ 64) : (h.setSize b v).size b = v := load64_store64_of_lt hv
@[simp] theorem next_setSize : (h.setSize b v).next b = h.next b := load64_store64_outside (by omega)
@[simp] theorem size_setNext : (h.setNext b v).size b = h.size b := load64_store64_outside (by omega)
theorem next_setNext (hv : v < 2 ^ 64) : (h.setNext b v).next b = v := load64_store64_of_lt hv

end Fields

/-- A link is written into one header only, if it is not `free_list`. -/
theorem setLink_outside (hx : prev ≠ 0 → x < prev + 8 ∨ prev + 16 ≤ x) : (h.setLink prev v).mem x = h.mem x := by
  unfold setLink
  split
  · rename_i hp
    exact setNext_outside (hx hp)
  · rfl

/-- The two parts of a block that is cut. -/
theorem cut_fields (prev : Nat) (hn : n + userBlockSize + 8 ≤ h.size b) (hlt : b + userBlockSize + h.size b < 2 ^ 63) :
    ∃ h₁ : UserHeap, h.take n prev b = h₁.setLink prev (b + userBlockSize + n) ∧ h₁.freeList = h.freeList ∧
      h₁.size b = n ∧ h₁.size (b + userBlockSize + n) = h.size b - n - userBlockSize ∧
      h₁.next (b + userBlockSize + n) = h.next b ∧
      ∀ x, x < b ∨ b + userBlockSize + h.size b ≤ x → h₁.mem x = h.mem x := by
  unfold userBlockSize at *
  obtain ⟨y, hy⟩ : ∃ y, y = b + 16 + n := ⟨_, rfl⟩
  have hmod : (b + 16 + n) % 2 ^ 64 = y := by omega
  obtain ⟨h₁, e₁⟩ : ∃ h₁, h₁ = h.setSize y (h.size b + (2 ^ 64 - n) + (2 ^ 64 - 16)) := ⟨_, rfl⟩
  obtain ⟨h₂, e₂⟩ : ∃ h₂, h₂ = h₁.setNext y (h₁.next b) := ⟨_, rfl⟩
  obtain ⟨h₃, e₃⟩ : ∃ h₃, h₃ = h₂.setSize b n := ⟨_, rfl⟩
  have hnext₁ : h₁.next b = h.next b := by
    rw [e₁]
    exact next_congr fun x h1 h2 => setSize_outside (by omega)
  have hsize₁ : h₁.size y = h.size b - n - 16 := by
    rw [e₁, show (h.setSize y _).size y = _ from load64_store64 _ _ _]
    omega
  have hy₃ : h₃.size y = h₂.size y ∧ h₃.next y = h₂.next y := by
    rw [e₃]
    exact ⟨size_congr fun x h1 h2 => setSize_outside (by omega), next_congr fun x h1 h2 => setSize_outside (by omega)⟩
  rw [← hy]
  refine ⟨h₃, ?_, by rw [e₃, e₂, e₁]; rfl, ?_, ?_, ?_, fun x hx => ?_⟩
  · unfold take userBlockSize
    rw [if_pos (by omega)]
    simp only [hmod, ← e₁, ← e₂, ← e₃]
  · rw [e₃, size_setSize _ _ _ (by omega)]
  · rw [hy₃.1, e₂, size_setNext, hsize₁]
  · rw [hy₃.2, e₂, next_setNext _ _ _ (by rw [hnext₁]; exact next_lt), hnext₁]
  · rw [e₃, setSize_outside (by omega), e₂, setNext_outside (by omega), e₁, setSize_outside (by omega)]

/-! ## The list -/

/-- The blocks `bs` fill the heap up to the break, and those of `fl` are in the list, in this order. -/
structure Shape (h : UserHeap) (brk : Nat) (bs fl : List Nat) : Prop where
  tiles : Tiles userBlockSize h.size 0x3000000 bs brk
  linked : Linked h.next 0 h.freeList fl
  sub : ∀ b ∈ fl, b ∈ bs
  sizes : ∀ b ∈ bs, 8 ∣ h.size b

/-- `prev` is the last node of `pre`. -/
def Before (prev : Nat) (pre : List Nat) : Prop := pre = [] ∧ prev = 0 ∨ ∃ l, pre = l ++ [prev]

theorem mem_insert_behind : c ∈ pre ++ b :: a :: post ↔ c = a ∨ c ∈ pre ++ b :: post := by
  simp only [List.mem_append, List.mem_cons]
  tauto

/-- A block that is not in the list. -/
structure Busy (bs fl : List Nat) (b : Nat) : Prop where
  mem : b ∈ bs
  out : b ∉ fl

/-- The blocks that are not in the list stay so, with their sizes. -/
def Keeps (h : UserHeap) (bs fl : List Nat) (h' : UserHeap) (bs' fl' : List Nat) : Prop :=
  ∀ q, Busy bs fl q → Busy bs' fl' q ∧ h'.size q = h.size q

/-- The loop of `malloc` ends: at the end of the list, or at a block that is large enough. -/
theorem search_spec (n : Nat) (pre : List Nat) (hfl : fl = pre ++ post) (hp : Before prev pre)
    (hl : Linked h.next 0 a post) (hf : post.length < fuel) :
    h.search n fuel prev a = .ok none ∨ ∃ pre' b post' prev', fl = pre' ++ b :: post' ∧ Before prev' pre' ∧
      n ≤ h.size b ∧ h.search n fuel prev a = .ok (some (prev', b)) := by
  induction post generalizing pre prev a fuel with
  | nil =>
      obtain ⟨fuel, rfl⟩ := Nat.exists_eq_succ_of_ne_zero (Nat.ne_zero_of_lt hf)
      exact .inl (if_pos hl)
  | cons b post ih =>
      obtain ⟨fuel, rfl⟩ := Nat.exists_eq_succ_of_ne_zero (Nat.ne_zero_of_lt hf)
      obtain ⟨rfl, hne, hl⟩ := hl
      unfold UserHeap.search
      rw [if_neg hne]
      split
      · rename_i hle
        exact .inr ⟨pre, a, post, prev, hfl, hp, hle, rfl⟩
      · exact ih _ (by simpa using hfl) (.inr ⟨pre, rfl⟩) hl (by simpa using hf)

namespace Shape

theorem bounds (hs : h.Shape brk bs fl) (hb : b ∈ bs) :
    0x3000000 ≤ b ∧ b + userBlockSize + h.size b ≤ brk ∧ 8 ∣ b := by
  obtain ⟨h1, h2⟩ := hs.tiles.inside hb
  exact ⟨h1, h2, hs.tiles.dvd (by decide) (by decide) hs.sizes hb⟩

/-- A block has left the list, and `suf` follows on the blocks before it. -/
theorem setLink {h₁ : UserHeap} {bs₁ suf : List Nat} (hs : h.Shape brk bs (pre ++ b :: post)) (hp : Before prev pre)
    (hv : v < 2 ^ 64) (ht : Tiles userBlockSize h₁.size 0x3000000 bs₁ brk) (hz : ∀ c ∈ bs₁, 8 ∣ h₁.size c)
    (hhead : h₁.freeList = h.freeList) (hpre : ∀ c ∈ pre, c ∈ bs₁ ∧ h₁.next c = h.next c)
    (hsuf : Linked h₁.next 0 v suf) (hmem : ∀ c ∈ suf, c ∈ bs₁ ∧ c ∉ pre) :
    (h₁.setLink prev v).Shape brk bs₁ (pre ++ suf) ∧ ∀ c ∈ bs₁, (h₁.setLink prev v).size c = h₁.size c := by
  have hsub : ∀ c ∈ pre ++ suf, c ∈ bs₁ := fun c hc =>
    (List.mem_append.mp hc).elim (fun hc => (hpre c hc).1) fun hc => (hmem c hc).1
  rcases hp with ⟨rfl, rfl⟩ | ⟨l, rfl⟩
  · rw [show h₁.setLink 0 v = { h₁ with freeList := v } from if_neg fun hne => hne rfl]
    exact ⟨⟨ht, hsuf, hsub, hz⟩, fun _ _ => rfl⟩
  have hlist : Linked h.next 0 h.freeList (l ++ prev :: (b :: post)) := by simpa using hs.linked
  have hne : prev ≠ 0 := hlist.ne_nil (List.mem_append_right _ List.mem_cons_self)
  have heq : h₁.setLink prev v = h₁.setNext prev v := if_pos hne
  -- the other blocks are elsewhere
  have hother : ∀ c ∈ bs₁, c ≠ prev → (h₁.setNext prev v).size c = h₁.size c ∧
      (h₁.setNext prev v).next c = h₁.next c := by
    intro c hc hcp
    have hd := ht.disjoint hc (hpre prev (by simp)).1 hcp
    unfold userBlockSize at hd
    exact ⟨size_congr fun x h1 h2 => setNext_outside (by omega),
      next_congr fun x h1 h2 => setNext_outside (by omega)⟩
  have hsize : ∀ c ∈ bs₁, (h₁.setNext prev v).size c = h₁.size c := by
    intro c hc
    by_cases hcp : c = prev
    · rw [hcp, size_setNext]
    · exact (hother c hc hcp).1
  rw [heq]
  have hfree : (h₁.setNext prev v).freeList = h.freeList := hhead
  refine ⟨⟨ht.congr hsize, ?_, hsub, fun c hc => ?_⟩, hsize⟩
  swap
  · rw [hsize c hc]
    exact hz c hc
  rw [List.append_assoc, hfree]
  have hnd := hlist.nodup
  refine hlist.relink (fun y hy => ?_) ?_
  · have hyp : y ≠ prev := fun he => by
      rw [List.nodup_append] at hnd
      exact hnd.2.2 y hy prev List.mem_cons_self he
    rw [(hother y (hpre y (by simp [hy])).1 hyp).2, (hpre y (by simp [hy])).2]
  · rw [next_setNext _ _ _ hv]
    refine hsuf.congr fun y hy => (hother y (hmem y hy).1 fun he => (hmem y hy).2 ?_).2
    simp [he]

/-- The other blocks do not lie where the block `b` does. -/
theorem same (hs : h.Shape brk bs fl) (hb : b ∈ bs) (hc : c ∈ bs) (hne : c ≠ b)
    (hm : ∀ x, x < b ∨ b + userBlockSize + h.size b ≤ x → h'.mem x = h.mem x) :
    h'.size c = h.size c ∧ h'.next c = h.next c := by
  have hd := hs.tiles.disjoint hb hc hne.symm
  unfold userBlockSize at hd hm
  exact ⟨size_congr fun x h1 h2 => hm x (by omega), next_congr fun x h1 h2 => hm x (by omega)⟩

/-- A block of the list is taken. -/
theorem take (hs : h.Shape brk bs (pre ++ b :: post)) (hp : Before prev pre) (hn : 8 ∣ n) (hle : n ≤ h.size b)
    (hlt : brk < 2 ^ 63) : ∃ bs' fl', (h.take n prev b).Shape brk bs' fl' ∧ Busy bs' fl' b ∧
      n ≤ (h.take n prev b).size b ∧ h.Keeps bs (pre ++ b :: post) (h.take n prev b) bs' fl' := by
  have hb := hs.sub b (by simp)
  obtain ⟨hge, hend, hal⟩ := hs.bounds hb
  have hnd := hs.linked.nodup
  have hpre : ∀ c ∈ pre, c ∈ bs ∧ c ≠ b ∧ c ∉ post := fun c hc => by
    rw [List.nodup_append] at hnd
    exact ⟨hs.sub c (by simp [hc]), hnd.2.2 c hc b (by simp), fun hp => hnd.2.2 c hc c (by simp [hp]) rfl⟩
  have hpost : ∀ c ∈ post, c ∈ bs ∧ c ≠ b := fun c hc => by
    rw [List.nodup_append, List.nodup_cons] at hnd
    exact ⟨hs.sub c (by simp [hc]), fun he => hnd.2.1.1 (he ▸ hc)⟩
  have hrest := hs.linked.behind
  by_cases hcut : n + userBlockSize + 8 ≤ h.size b
  · -- the rest of the block takes its place
    obtain ⟨h₁, heq, hhead, hsz, hszy, hnxy, hmem⟩ := cut_fields prev hcut (by omega)
    rw [heq]
    generalize hy : b + userBlockSize + n = y at hszy hnxy
    have hsame : ∀ c ∈ bs, c ≠ b → h₁.size c = h.size c ∧ h₁.next c = h.next c := fun c hc hne =>
      hs.same hb hc hne hmem
    have hyb : y ∉ bs := fun hyb => by
      have hd := hs.tiles.disjoint hb hyb (by unfold userBlockSize at hy; omega)
      unfold userBlockSize at *
      omega
    obtain ⟨p₁, p₂, rfl⟩ := List.mem_iff_append.mp hb
    have hnew : ∀ c, c ∈ p₁ ++ b :: y :: p₂ ↔ c = y ∨ c ∈ p₁ ++ b :: p₂ := fun c => mem_insert_behind
    have hmid := (List.nodup_cons.mp (List.nodup_middle.mp (hs.tiles.nodup (by decide)))).1
    have htiles : Tiles userBlockSize h₁.size 0x3000000 (p₁ ++ b :: y :: p₂) brk := by
      refine hs.tiles.split (by rw [hsz, hy]) (by rw [hsz, hszy]; omega) (fun c hc => ?_) fun c hc => ?_
      · exact (hsame c (by simp [hc]) fun he => hmid (he ▸ List.mem_append_left _ hc)).1
      · exact (hsame c (by simp [hc]) fun he => hmid (he ▸ List.mem_append_right _ hc)).1
    have hsizes : ∀ c ∈ p₁ ++ b :: y :: p₂, 8 ∣ h₁.size c := by
      intro c hc
      have hold := hs.sizes b hb
      rcases (hnew c).mp hc with rfl | hc
      · rw [hszy]
        unfold userBlockSize
        omega
      · by_cases hcb : c = b
        · rw [hcb, hsz]
          exact hn
        · rw [(hsame c hc hcb).1]
          exact hs.sizes c hc
    have hy0 : y ≠ 0 := by
      unfold userBlockSize at hy
      omega
    have hsuf : Linked h₁.next 0 y (y :: post) := by
      refine ⟨rfl, hy0, ?_⟩
      rw [hnxy]
      exact hrest.congr fun c hc => (hsame c (hpost c hc).1 (hpost c hc).2).2
    obtain ⟨hs', hsize'⟩ := hs.setLink hp (by omega) htiles hsizes hhead
      (fun c hc => ⟨(hnew c).mpr (.inr (hpre c hc).1), (hsame c (hpre c hc).1 (hpre c hc).2.1).2⟩) hsuf
      fun c hc => by
        rcases List.mem_cons.mp hc with rfl | hc
        · exact ⟨(hnew c).mpr (.inl rfl), fun hcp => hyb (hpre c hcp).1⟩
        · exact ⟨(hnew c).mpr (.inr (hpost c hc).1), fun hcp => (hpre c hcp).2.2 hc⟩
    have hbmem : b ∈ p₁ ++ b :: y :: p₂ := by simp
    refine ⟨_, _, hs', ⟨hbmem, fun hbf => ?_⟩, by rw [hsize' b hbmem, hsz], fun q hq => ?_⟩
    · rcases List.mem_append.mp hbf with hbf | hbf
      · exact (hpre b hbf).2.1 rfl
      · rcases List.mem_cons.mp hbf with he | hbf
        · exact hyb (he ▸ hb)
        · exact (hpost b hbf).2 rfl
    · have hqb : q ≠ b := fun he => hq.out (by simp [he])
      have hq' := (hnew q).mpr (.inr hq.mem)
      refine ⟨⟨hq', fun hqf => hq.out ?_⟩, (hsize' q hq').trans (hsame q hq.mem hqb).1⟩
      rcases List.mem_append.mp hqf with hqf | hqf
      · simp [hqf]
      · rcases List.mem_cons.mp hqf with rfl | hqf
        · exact absurd hq.mem hyb
        · simp [hqf]
  · -- the whole block
    have heq : h.take n prev b = h.setLink prev (h.next b) := by
      unfold UserHeap.take
      rw [if_neg (by unfold userBlockSize at *; omega)]
    rw [heq]
    obtain ⟨hs', hsize'⟩ := hs.setLink hp next_lt hs.tiles hs.sizes rfl
      (fun c hc => ⟨(hpre c hc).1, rfl⟩) hrest
      fun c hc => ⟨(hpost c hc).1, fun hcp => (hpre c hcp).2.2 hc⟩
    refine ⟨_, _, hs', ⟨hb, fun hbf => ?_⟩, by rw [hsize' b hb]; exact hle,
      fun q hq => ⟨⟨hq.mem, fun hqf => ?_⟩, hsize' q hq.mem⟩⟩
    · rcases List.mem_append.mp hbf with hbf | hbf
      · exact (hpre b hbf).2.1 rfl
      · exact (hpost b hbf).2 rfl
    · refine hq.out ?_
      rcases List.mem_append.mp hqf with hqf | hqf <;> simp [hqf]

/-- What is stored outside the headers changes no block. -/
theorem congr (hs : h.Shape brk bs fl) (h' : UserHeap) (hhead : h'.freeList = h.freeList)
    (hm : ∀ b ∈ bs, ∀ x, b ≤ x → x < b + userBlockSize → h'.mem x = h.mem x) :
    h'.Shape brk bs fl ∧ ∀ b ∈ bs, h'.size b = h.size b := by
  unfold userBlockSize at hm
  have hsize : ∀ b ∈ bs, h'.size b = h.size b := fun b hb => size_congr fun x h1 h2 => hm b hb x h1 (by omega)
  refine ⟨⟨hs.tiles.congr hsize, ?_, hs.sub, fun b hb => ?_⟩, hsize⟩
  · rw [hhead]
    exact hs.linked.congr fun b hb => next_congr fun x h1 h2 => hm b (hs.sub b hb) x (by omega) h2
  · rw [hsize b hb]
    exact hs.sizes b hb

/-- A new block at the break. -/
theorem setSize (hs : h.Shape brk bs fl) (hn : 8 ∣ n) (hlt : n < 2 ^ 64) :
    (h.setSize brk n).Shape (brk + userBlockSize + n) (bs ++ [brk]) fl ∧ Busy (bs ++ [brk]) fl brk ∧
      (h.setSize brk n).size brk = n ∧ h.Keeps bs fl (h.setSize brk n) (bs ++ [brk]) fl := by
  have hbelow : ∀ b ∈ bs, b + userBlockSize ≤ brk := fun b hb => by
    have := (hs.bounds hb).2.1
    omega
  have hout : brk ∉ bs := fun hb => by
    have := hbelow brk hb
    unfold userBlockSize at this
    omega
  obtain ⟨hs', hsize⟩ := hs.congr (h.setSize brk n) rfl fun b hb x h1 h2 => by
    have := hbelow b hb
    exact setSize_outside (by omega)
  have hself : (h.setSize brk n).size brk = n := size_setSize _ _ _ hlt
  refine ⟨⟨?_, hs'.linked, fun b hb => List.mem_append_left _ (hs.sub b hb), fun b hb => ?_⟩,
    ⟨by simp, fun hb => hout (hs.sub _ hb)⟩, hself,
    fun q hq => ⟨⟨List.mem_append_left _ hq.mem, hq.out⟩, hsize q hq.mem⟩⟩
  · have ht := hs'.tiles.snoc
    rwa [hself] at ht
  · rcases List.mem_append.mp hb with hb | hb
    · exact hs'.sizes b hb
    · rw [List.mem_singleton.mp hb, hself]
      exact hn

/-- A block goes to the front of the list. -/
theorem release (hs : h.Shape brk bs fl) (hb : Busy bs fl b) (hlt : brk < 2 ^ 63) :
    (h.release (b + userBlockSize)).Shape brk bs (b :: fl) ∧
      ∀ c ∈ bs, (h.release (b + userBlockSize)).size c = h.size c := by
  obtain ⟨hge, hend, -⟩ := hs.bounds hb.mem
  have heq : h.release (b + userBlockSize) = { h.setNext b h.freeList with freeList := b } := by
    unfold UserHeap.release
    rw [if_neg (by unfold userBlockSize; omega),
      show (b + userBlockSize + (2 ^ 64 - userBlockSize)) % 2 ^ 64 = b by unfold userBlockSize at *; omega]
  rw [heq]
  have hfirst : h.freeList < 2 ^ 64 := by
    have hlinked := hs.linked
    cases fl with
    | nil =>
        rw [linked_nil.mp hlinked]
        decide
    | cons c fl =>
        rw [hlinked.1]
        have := (hs.bounds (hs.sub c (by simp))).2.1
        omega
  have hother : ∀ c ∈ bs, c ≠ b → (h.setNext b h.freeList).size c = h.size c ∧
      (h.setNext b h.freeList).next c = h.next c := fun c hc hne =>
    hs.same hb.mem hc hne fun x hx => setNext_outside (by unfold userBlockSize at hx; omega)
  have hsize : ∀ c ∈ bs, (h.setNext b h.freeList).size c = h.size c := by
    intro c hc
    by_cases hcb : c = b
    · rw [hcb, size_setNext]
    · exact (hother c hc hcb).1
  refine ⟨⟨hs.tiles.congr hsize, ?_, fun c hc => ?_, fun c hc => ?_⟩, hsize⟩
  · refine hs.linked.push (show b ≠ 0 by omega) (next_setNext _ _ _ hfirst) fun c hc => (hother c (hs.sub c hc) ?_).2
    exact fun he => hb.out (he ▸ hc)
  · rcases List.mem_cons.mp hc with rfl | hc
    · exact hb.mem
    · exact hs.sub c hc
  · show 8 ∣ (h.setNext b h.freeList).size c
    rw [hsize c hc]
    exact hs.sizes c hc

end Shape

end UserHeap

/-! ## Runs -/

/-- What `sbrk` of the library returns. -/
def LibSbrk.result (l : LibSbrk) (res : BitVec 64) : Nat := if res.toInt < 0 then 2 ^ 64 - 1 else l.brk

/-- The heap of a process, what `sbrk.c` keeps, and the allocations that are out, each with the number of bytes
that it was made for. -/
structure ProcHeap where
  heap : UserHeap
  lib : LibSbrk := {}
  outstanding : List (Nat × Nat) := []

namespace ProcHeap

/-- `malloc(n)` returns `p`. -/
def hand (u : ProcHeap) (n p : Nat) : List (Nat × Nat) :=
  if p = 0 then u.outstanding else (p, n) :: u.outstanding

/-- `malloc(n)` goes on after its system call, with memory `m`. -/
def extend (u : ProcHeap) (n : Nat) (inc : Int) (m : Mem) (res : BitVec 64) : ProcHeap :=
  let r := ({ u.heap with mem := m } : UserHeap).extend n (u.lib.result res)
  { heap := r.2, lib := u.lib.sbrk inc res, outstanding := u.hand n r.1 }

end ProcHeap

/-- The machine, with the heap of each process. -/
structure Arena where
  machine : Machine
  proc : Fin procsMax → ProcHeap

/-- A call of `malloc.c`, a store, or a trap that is not one of `sbrk`. -/
inductive ArenaCall
  | malloc (n : Nat)
  | free (p : Nat)
  | write (a : Nat) (v : UInt8)
  | trap (t : Trap)

namespace Arena

variable (x : Arena)

/-- The heap of the process that runs. -/
def current : ProcHeap := x.proc x.machine.kernel.cur

def setCurrent (u : ProcHeap) : Fin procsMax → ProcHeap := Function.update x.proc x.machine.kernel.cur u

/-- A child gets a copy, and a new program starts with zeros in `.bss`. -/
def procAfter (L : Layout) (fs : Initramfs) (t : Trap) (m : Mem) : Fin procsMax → ProcHeap :=
  match t.request with
  | some .fork =>
    match x.machine.kernel.freeSlot with
    | some i => Function.update x.proc i x.current
    | none => x.proc
  | some (.exec filename _ _) =>
    match (x.machine.inKernel L t).tarfsLookup filename fs with
    | .ok (some _) => x.setCurrent { heap := { mem := m } }
    | _ => x.proc
  | _ => x.proc

end Arena

inductive ArenaStep (L : Layout) (fs : Initramfs) : Arena → ArenaCall → Arena → Prop
  /-- `malloc` finds a block in the list -/
  | block {x : Arena} {n p : Nat} {h : UserHeap} : n < 2 ^ 64 → x.current.heap.malloc n = .ok (.block p h) →
      ArenaStep L fs x (.malloc n)
        { x with proc := x.setCurrent { x.current with heap := h, outstanding := x.current.hand n p } }
  /-- `malloc` calls `sbrk`; the bytes below the break stay as they are -/
  | sbrk {x : Arena} {n : Nat} {inc : Int} {t : Trap} {s : Machine} {m : Mem} : n < 2 ^ 64 →
      x.current.heap.malloc n = .ok (.sbrk inc) → x.machine.Step L fs t s → t.request = some (.sbrk inc) →
      (∀ a < x.current.lib.brk, m a = x.current.heap.mem a) →
      ArenaStep L fs x (.malloc n) ⟨s, x.setCurrent (x.current.extend n inc m (s.user 10))⟩
  | free {x : Arena} {p : Nat} : p = 0 ∨ (∃ r ∈ x.current.outstanding, r.1 = p) →
      ArenaStep L fs x (.free p) { x with proc := x.setCurrent { x.current with
        heap := x.current.heap.release p, outstanding := x.current.outstanding.filter fun r => r.1 ≠ p } }
  /-- a store to an allocation, or outside the heap -/
  | write {x : Arena} {a : Nat} {v : UInt8} :
      (∃ r ∈ x.current.outstanding, r.1 ≤ a ∧ a < r.1 + r.2) ∨ a < 0x3000000 ∨ x.current.lib.brk ≤ a →
      ArenaStep L fs x (.write a v) { x with proc := x.setCurrent { x.current with
        heap := { x.current.heap with mem := Function.update x.current.heap.mem a v } } }
  | trap {x : Arena} {t : Trap} {s : Machine} {m : Mem} : x.machine.Step L fs t s → t.Maps →
      (∀ inc, t.request ≠ some (.sbrk inc)) → ArenaStep L fs x (.trap t) ⟨s, x.procAfter L fs t m⟩

/-- The shell starts, and no program has a heap. -/
structure ArenaStart (L : Layout) (fs : Initramfs) (x : Arena) : Prop where
  start : x.machine.Start L fs
  proc : ∀ i, ∃ m, x.proc i = { heap := { mem := m } }

/-- What an allocation of `r.2` bytes at `r.1` is good for: the process may read and write its bytes, and no
header of a block in the list is among them. -/
structure Usable (k : Kernel) (i : Fin procsMax) (u : ProcHeap) (r : Nat × Nat) : Prop where
  aligned : 8 ∣ r.1
  inside : 0x3000000 ≤ r.1 ∧ r.1 + r.2 ≤ u.lib.brk
  own : ∀ va, r.1 ≤ va → va < r.1 + r.2 → OwnByte (k.map i) va
  header : ∀ b, OnChain u.heap.next 0 u.heap.freeList b → r.1 + r.2 ≤ b ∨ b + userBlockSize ≤ r.1

structure ProcHeap.Ok (k : Kernel) (i : Fin procsMax) (u : ProcHeap) : Prop where
  usable : ∀ r ∈ u.outstanding, Usable k i u r
  apart : u.outstanding.Pairwise fun r r' => r.1 + r.2 ≤ r'.1 ∨ r'.1 + r'.2 ≤ r.1

def Arena.Ok (x : Arena) : Prop :=
  ∀ i, x.machine.kernel.Live i → (x.proc i).Ok x.machine.kernel i

/-- The size does not overflow, with its rounding and the header, as a number with a sign. -/
def ArenaCall.Fits : ArenaCall → Prop
  | .malloc n => n ≤ 2 ^ 63 - 24
  | _ => True

/-! ## The invariant -/

theorem align8_dvd (n : Nat) : 8 ∣ align8 n := Nat.dvd_mul_left 8 _

/-- Where the size fits, the number of bytes that `malloc` asks `sbrk` for is positive. -/
theorem align8_fits {n : Nat} (hn : n ≤ 2 ^ 63 - 24) : n ≤ align8 n ∧
    (BitVec.ofNat 64 (align8 n + userBlockSize)).toInt = align8 n + userBlockSize ∧
    align8 n + userBlockSize < 2 ^ 63 := by
  have hmod : align8 n = (n + 7) / 8 * 8 := by
    unfold align8
    rw [Nat.mod_eq_of_lt (by omega)]
  have hlt : align8 n + userBlockSize < 2 ^ 63 := by
    unfold userBlockSize
    omega
  have hnat : (BitVec.ofNat 64 (align8 n + userBlockSize)).toNat = align8 n + userBlockSize := by
    rw [BitVec.toNat_ofNat, Nat.mod_eq_of_lt (by omega)]
  refine ⟨by omega, ?_, hlt⟩
  rw [BitVec.toInt_eq_toNat_of_lt (by omega), hnat]
  rfl

/-- The blocks of the heap, and those of them that the allocations have. -/
structure Blocks (u : ProcHeap) (bs fl : List Nat) : Prop where
  shape : u.heap.Shape u.lib.brk bs fl
  block : ∀ r ∈ u.outstanding, ∃ b, UserHeap.Busy bs fl b ∧ r.1 = b + userBlockSize ∧ r.2 ≤ u.heap.size b
  apart : u.outstanding.Pairwise fun r r' => r.1 ≠ r'.1

namespace Blocks

variable {u u' : ProcHeap} {bs fl bs' fl' : List Nat} {l : LibSbrk} {h : UserHeap} {m : Mem} {b n p : Nat}

theorem fresh (m : Mem) : Blocks { heap := { mem := m } } [] [] :=
  ⟨⟨rfl, rfl, fun _ hb => absurd hb List.not_mem_nil, fun _ hb => absurd hb List.not_mem_nil⟩,
    fun _ hr => absurd hr List.not_mem_nil, .nil⟩

/-- The allocations keep their blocks. -/
theorem keeps (hu : Blocks u bs fl) (hs : h.Shape l.brk bs' fl') (hk : u.heap.Keeps bs fl h bs' fl') :
    Blocks { heap := h, lib := l, outstanding := u.outstanding } bs' fl' := by
  refine ⟨hs, fun r hr => ?_, hu.apart⟩
  obtain ⟨b, hb, he, hle⟩ := hu.block r hr
  obtain ⟨hb', hsize⟩ := hk b hb
  exact ⟨b, hb', he, by rw [hsize]; exact hle⟩

/-- One allocation more, with a block that no other one has. -/
theorem hand (hu : Blocks u bs fl) (hs : h.Shape l.brk bs' fl') (hk : u.heap.Keeps bs fl h bs' fl')
    (hnew : ¬UserHeap.Busy bs fl b) (hb : UserHeap.Busy bs' fl' b) (hn : n ≤ h.size b) :
    Blocks { heap := h, lib := l, outstanding := u.hand n (b + userBlockSize) } bs' fl' := by
  have hold := hu.keeps hs hk
  have hcons : u.hand n (b + userBlockSize) = (b + userBlockSize, n) :: u.outstanding :=
    if_neg (by unfold userBlockSize; omega)
  rw [hcons]
  refine ⟨hs, fun r hr => ?_, List.pairwise_cons.mpr ⟨fun r hr he => ?_, hu.apart⟩⟩
  · rcases List.mem_cons.mp hr with rfl | hr
    · exact ⟨b, hb, rfl, hn⟩
    · exact hold.block r hr
  · obtain ⟨c, hc, hrc, -⟩ := hu.block r hr
    have he : b + userBlockSize = r.1 := he
    obtain rfl : b = c := by omega
    exact hnew hc

/-- A new block at the break, with memory that is the same below it. -/
theorem extend (hu : Blocks u bs fl) (hn : n ≤ align8 n) (hlt : align8 n < 2 ^ 64)
    (hm : ∀ a < u.lib.brk, m a = u.heap.mem a) (hl : l.brk = u.lib.brk + (align8 n + userBlockSize)) :
    Blocks { heap := ({ u.heap with mem := m } : UserHeap).setSize u.lib.brk (align8 n), lib := l,
             outstanding := u.hand n (u.lib.brk + userBlockSize) } (bs ++ [u.lib.brk]) fl := by
  have hbelow : ∀ b ∈ bs, b + userBlockSize ≤ u.lib.brk := fun b hb => by
    have := (hu.shape.bounds hb).2.1
    omega
  obtain ⟨hs, hsize⟩ := hu.shape.congr { u.heap with mem := m } rfl fun b hb x h1 h2 => by
    have := hbelow b hb
    exact hm x (by omega)
  obtain ⟨hs', hb, hsz, hk⟩ := hs.setSize (align8_dvd n) hlt
  rw [show u.lib.brk + userBlockSize + align8 n = l.brk by omega] at hs'
  refine hu.hand hs' (fun q hq => ⟨(hk q hq).1, (hk q hq).2.trans (hsize q hq.mem)⟩) (fun hq => ?_) hb
    (by rw [hsz]; exact hn)
  have := hbelow _ hq.mem
  unfold userBlockSize at this
  omega

/-- `free` of an allocation. -/
theorem release (hu : Blocks u bs fl) (hlt : u.lib.brk < 2 ^ 63) (hp : p = 0 ∨ ∃ r ∈ u.outstanding, r.1 = p) :
    ∃ fl', Blocks { u with heap := u.heap.release p, outstanding := u.outstanding.filter fun r => r.1 ≠ p } bs fl' := by
  have hapart := hu.apart.filter fun r => r.1 ≠ p
  have hmem : ∀ r, r ∈ u.outstanding.filter (fun r => r.1 ≠ p) ↔ r ∈ u.outstanding ∧ r.1 ≠ p := fun r => by
    rw [List.mem_filter, decide_eq_true_eq]
  rcases hp with rfl | ⟨r, hr, rfl⟩
  · exact ⟨fl, hu.shape, fun r hr => hu.block r ((hmem r).mp hr).1, hapart⟩
  · obtain ⟨b, hb, he, -⟩ := hu.block r hr
    rw [he] at hapart hmem ⊢
    obtain ⟨hs, hsize⟩ := hu.shape.release hb hlt
    refine ⟨b :: fl, hs, fun q hq => ?_, hapart⟩
    obtain ⟨hq, hne⟩ := (hmem q).mp hq
    obtain ⟨c, hc, hqe, hle⟩ := hu.block q hq
    refine ⟨c, ⟨hc.mem, fun hcf => ?_⟩, hqe, by rw [hsize c hc.mem]; exact hle⟩
    rcases List.mem_cons.mp hcf with rfl | hcf
    · exact hne hqe
    · exact hc.out hcf

/-- A store of the process. -/
theorem write (hu : Blocks u bs fl) {a : Nat} {v : UInt8}
    (ha : (∃ r ∈ u.outstanding, r.1 ≤ a ∧ a < r.1 + r.2) ∨ a < 0x3000000 ∨ u.lib.brk ≤ a) :
    Blocks { u with heap := { u.heap with mem := Function.update u.heap.mem a v } } bs fl := by
  obtain ⟨hs, hsize⟩ := hu.shape.congr { u.heap with mem := Function.update u.heap.mem a v } rfl
    fun b hb x h1 h2 => by
      refine Function.update_of_ne ?_ _ _
      have hbd := hu.shape.bounds hb
      rcases ha with ⟨r, hr, hra, har⟩ | ha
      · obtain ⟨c, hc, he, hle⟩ := hu.block r hr
        by_cases hbc : b = c
        · omega
        · have hd := hu.shape.tiles.disjoint hb hc.mem hbc
          omega
      · omega
  exact hu.keeps hs fun q hq => ⟨hq, hsize q hq.mem⟩

/-- The allocations are usable when the heap is mapped. -/
theorem ok (hu : Blocks u bs fl) {k : Kernel} {i : Fin procsMax} {F : List Nat} (hb : BrkInv k i u.lib)
    (hv : k.Valid L F) (hl : k.Live i) : u.Ok k i := by
  have hsynced := hb.synced
  have hin : ∀ r ∈ u.outstanding, 8 ∣ r.1 ∧ 0x3000000 ≤ r.1 ∧ r.1 + r.2 ≤ u.lib.brk := by
    intro r hr
    obtain ⟨b, hbb, he, hle⟩ := hu.block r hr
    obtain ⟨h1, h2, h3⟩ := hu.shape.bounds hbb.mem
    unfold userBlockSize at *
    omega
  refine ⟨fun r hr => ⟨(hin r hr).1, (hin r hr).2, fun va h1 h2 => ?_, fun c hc => ?_⟩, ?_⟩
  · have := hin r hr
    exact hb.mapped.ownByte hv hl (by omega) (by omega)
  · obtain ⟨b, hbb, he, hle⟩ := hu.block r hr
    have hcf := hu.shape.linked.onChain_iff.mp hc
    have hd := hu.shape.tiles.disjoint (hu.shape.sub c hcf) hbb.mem fun hcb => hbb.out (hcb ▸ hcf)
    omega
  · refine (List.Pairwise.and_mem.mp hu.apart).imp fun {r r'} ⟨hr, hr', hne⟩ => ?_
    obtain ⟨b, hbb, he, hle⟩ := hu.block r hr
    obtain ⟨b', hbb', he', hle'⟩ := hu.block r' hr'
    have hd := hu.shape.tiles.disjoint hbb.mem hbb'.mem fun hbe => hne (by rw [he, he', hbe])
    omega

/-- `malloc` takes a block of the list, or it calls `sbrk`. -/
theorem malloc (hu : Blocks u bs fl) (hlt : u.lib.brk < 2 ^ 63) (n : Nat) :
    u.heap.malloc n = .ok (.sbrk (BitVec.ofNat 64 (align8 n + userBlockSize)).toInt) ∨
      ∃ b h bs' fl', u.heap.malloc n = .ok (.block (b + userBlockSize) h) ∧ b ∈ fl ∧
        h.Shape u.lib.brk bs' fl' ∧ UserHeap.Busy bs' fl' b ∧ align8 n ≤ h.size b ∧
        u.heap.Keeps bs fl h bs' fl' := by
  have hlen := hu.shape.tiles.length_le
  have hsub := (hu.shape.linked.nodup.subperm hu.shape.sub).length_le
  obtain ⟨fuel, hfuel⟩ : ∃ fuel, fuel = 2 ^ 64 + 1 := ⟨_, rfl⟩
  have hf : fl.length < fuel := by
    unfold userBlockSize at hlen
    omega
  unfold UserHeap.malloc
  rw [← hfuel]
  clear hfuel
  dsimp only
  rcases UserHeap.search_spec (align8 n) [] rfl (.inl ⟨rfl, rfl⟩) hu.shape.linked hf with
    hs | ⟨pre, b, post, prev, rfl, hp, hle, hs⟩
  · exact .inl (by rw [hs]; rfl)
  · obtain ⟨bs', fl', hs', hb, hn, hk⟩ := hu.shape.take (n := align8 n) hp (align8_dvd n) hle hlt
    have hbd := hu.shape.bounds (hu.shape.sub b (by simp))
    refine .inr ⟨b, _, bs', fl', ?_, by simp, hs', hb, hn, hk⟩
    rw [hs, ok_bind]
    simp only [Nat.mod_eq_of_lt (show b + userBlockSize < 2 ^ 64 by omega)]

end Blocks

namespace Arena

variable {x x' : Arena} {c : ArenaCall} {u : ProcHeap} {k : Kernel} {F : List Nat} {i : Fin procsMax} {n p : Nat}

/-- The machine with what `sbrk.c` keeps. -/
def brk (x : Arena) : Brk := ⟨x.machine, fun i => (x.proc i).lib⟩

/-- In every state of a run: the breaks are well formed, and so is the heap of every process. -/
structure Inv (L : Layout) (x : Arena) : Prop where
  brk : x.brk.Ok L
  blocks : ∀ i, ∃ bs fl, Blocks (x.proc i) bs fl

theorem lib_setCurrent (x : Arena) (u : ProcHeap) :
    (fun i => (x.setCurrent u i).lib) = Function.update (fun i => (x.proc i).lib) x.machine.kernel.cur u.lib :=
  Function.comp_update ProcHeap.lib x.proc _ u

theorem setCurrent_self (hcur : x.machine.kernel.cur = i) (u : ProcHeap) : x.setCurrent u i = u := by
  rw [setCurrent, hcur, Function.update_self]

theorem setCurrent_of_ne (hi : i ≠ x.machine.kernel.cur) (u : ProcHeap) : x.setCurrent u i = x.proc i :=
  Function.update_of_ne hi _ _

theorem Inv.ok (hx : x.Inv L) : x.Ok := by
  intro i hl
  obtain ⟨F, c, hr⟩ := hx.brk.running
  obtain ⟨bs, fl, hu⟩ := hx.blocks i
  exact hu.ok (hx.brk.inv i hl) hr.toValid hl

/-- Only the heap of the process that runs is changed. -/
theorem Inv.setCurrent (hx : x.Inv L) (hlib : u.lib = x.current.lib) (hu : ∃ bs fl, Blocks u bs fl) :
    ({ x with proc := x.setCurrent u } : Arena).Inv L := by
  have hbrk : ({ x with proc := x.setCurrent u } : Arena).brk = x.brk := by
    unfold Arena.brk
    rw [lib_setCurrent, hlib]
    exact congrArg _ (Function.update_eq_self _ _)
  refine ⟨hbrk ▸ hx.brk, fun i => ?_⟩
  show ∃ bs fl, Blocks (x.setCurrent u i) bs fl
  by_cases hi : i = x.machine.kernel.cur
  · rwa [setCurrent_self hi.symm]
  · rw [setCurrent_of_ne hi]
    exact hx.blocks i

/-- No allocation is as large as half of the address space. -/
theorem not_ok_of_large (hv : k.Valid L F) (hl : k.Live i) (hn : 2 ^ 63 - 24 < n) (hr : (p, n) ∈ u.outstanding) :
    ¬u.Ok k i := by
  intro hu
  obtain ⟨j, hj, hno⟩ := hv.not_mapped hl (a := (p + 4095) / 4096 * 4096) (by omega)
  obtain ⟨pg, hpg, -⟩ := (hu.usable _ hr).own ((p + 4095) / 4096 * 4096 + 4096 * j) (by show p ≤ _; omega)
    (by show _ < p + n; omega)
  exact hno pg hpg

@[simp] theorem brk_machine (x : Arena) : x.brk.machine = x.machine := rfl

/-- A trap that is not one of `sbrk` copies or renews at most one heap. -/
theorem procAfter_cases (L : Layout) (fs : Initramfs) (x : Arena) {t : Trap} (ht : ∀ inc, t.request ≠ some (.sbrk inc)) (m : Mem) (res : BitVec 64) :
    ∃ i u, x.procAfter L fs t m = Function.update x.proc i u ∧
      x.brk.libAfter L fs t res = Function.update x.brk.lib i u.lib ∧
      ((∃ j, u = x.proc j) ∨ u = { heap := { mem := m } }) := by
  unfold procAfter Brk.libAfter
  have hsame : ∃ i u, x.proc = Function.update x.proc i u ∧ x.brk.lib = Function.update x.brk.lib i u.lib ∧
      ((∃ j, u = x.proc j) ∨ u = { heap := { mem := m } }) :=
    ⟨0, x.proc 0, (Function.update_eq_self _ _).symm, (Function.update_eq_self _ _).symm, .inl ⟨0, rfl⟩⟩
  cases hreq : t.request with
  | none => exact hsame
  | some call =>
      cases call with
      | sbrk inc => exact absurd hreq (ht inc)
      | fork =>
          simp only [brk_machine]
          cases x.machine.kernel.freeSlot with
          | none => exact hsame
          | some i => exact ⟨i, x.current, rfl, rfl, .inl ⟨_, rfl⟩⟩
      | exec filename argv argc =>
          simp only [brk_machine]
          rcases (x.machine.inKernel L t).tarfsLookup filename fs with _ | (_ | elf)
          · exact hsame
          · exact hsame
          · exact ⟨_, _, rfl, rfl, .inr rfl⟩
      | _ => exact hsame

/-- With a break that the kernel returns, `malloc` has a new block. -/
theorem extend_eq {e : Nat} (u : ProcHeap) (n : Nat) (inc : Int) (m : Mem) (he : e ≤ 0x7000000) (hlt : u.lib.brk ≤ 0x7000000) :
    u.extend n inc m (BitVec.ofNat 64 e) =
      { heap := ({ u.heap with mem := m } : UserHeap).setSize u.lib.brk (align8 n),
        lib := u.lib.sbrk inc (BitVec.ofNat 64 e), outstanding := u.hand n (u.lib.brk + userBlockSize) } := by
  have hnat : (BitVec.ofNat 64 e).toNat = e := by
    rw [BitVec.toNat_ofNat, Nat.mod_eq_of_lt (by omega)]
  have hres : u.lib.result (BitVec.ofNat 64 e) = u.lib.brk := by
    unfold LibSbrk.result
    rw [if_neg (by rw [BitVec.toInt_eq_toNat_of_lt (by omega), hnat]; omega)]
  unfold ProcHeap.extend UserHeap.extend
  simp only [hres]
  rw [if_neg (by omega), Nat.mod_eq_of_lt (by unfold userBlockSize; omega)]

/-- A call keeps the invariant exactly when the size fits. -/
theorem Inv.step (hfs : ∀ f ∈ fs, f.2.Linked) (hx : x.Inv L) (h : ArenaStep L fs x c x') :
    (x'.Ok ↔ c.Fits) ∧ (x'.Ok → x'.Inv L) := by
  obtain ⟨F, i, hr⟩ := hx.brk.running
  have hr : Running L x.machine.kernel F i := hr
  have hcur : x.machine.kernel.cur = i := hr.cur
  obtain ⟨bs, fl, hu⟩ := hx.blocks i
  have hb : BrkInv x.machine.kernel i (x.proc i).lib := hx.brk.inv i hr.live
  have hu' : Blocks x.current bs fl := by
    rw [current, hcur]
    exact hu
  have hlib : x.current.lib = (x.proc i).lib := by rw [current, hcur]
  have hlt : x.current.lib.brk ≤ 0x7000000 := by
    have := hb.mapped.le hr.toValid hr.live
    have := hb.synced
    rw [hlib]
    omega
  have hgood : x'.Inv L → c.Fits → (x'.Ok ↔ c.Fits) ∧ (x'.Ok → x'.Inv L) := fun hi hf =>
    ⟨⟨fun _ => hf, fun _ => hi.ok⟩, fun _ => hi⟩
  have hbad : ¬x'.Ok → ¬c.Fits → (x'.Ok ↔ c.Fits) ∧ (x'.Ok → x'.Inv L) := fun hn hf =>
    ⟨⟨fun h => absurd h hn, fun h => absurd h hf⟩, fun h => absurd h hn⟩
  cases h with
  | @block n p h hn hm =>
      rcases hu'.malloc (by omega) n with hs | ⟨b, h₁, bs', fl', hs, hbf, hshape, hbusy, hle, hk⟩
      · rw [hm] at hs
        cases hs
      rw [hm] at hs
      cases hs
      by_cases hfit : n ≤ 2 ^ 63 - 24
      · refine hgood (hx.setCurrent rfl ⟨bs', fl', ?_⟩) hfit
        exact hu'.hand hshape hk (fun hq => hq.out hbf) hbusy (Nat.le_trans (align8_fits hfit).1 hle)
      · refine hbad (fun hok => ?_) hfit
        have hok' : (x.setCurrent _ i).Ok x.machine.kernel i := hok i hr.live
        rw [setCurrent_self hcur] at hok'
        refine not_ok_of_large (p := b + userBlockSize) hr.toValid hr.live (Nat.lt_of_not_le hfit) ?_ hok'
        show _ ∈ x.current.hand n (b + userBlockSize)
        rw [ProcHeap.hand, if_neg (by unfold userBlockSize; omega)]
        exact List.mem_cons_self
  | @sbrk n inc t s m hn hm hs ht hmem =>
      rcases hu'.malloc (by omega) n with hinc | ⟨b, h₁, bs', fl', hinc, -⟩
      swap
      · rw [hm] at hinc
        cases hinc
      have hinc : inc = (BitVec.ofNat 64 (align8 n + userBlockSize)).toInt := by simpa using hm.symm.trans hinc
      have hmaps : t.Maps := maps_of_sbrk ht
      obtain ⟨hmap, F', c', hr'⟩ := hs.remaps hfs hr hmaps
      obtain ⟨hlive, hres⟩ : s.kernel.Live i ∧ s.user 10 = BitVec.ofNat 64 (x.machine.kernel.procs i).heapEnd := by
        cases hmap with
        | sbrk _ hg _ hres => exact ⟨hg.live, hres⟩
        | timer h _ | forkNone h _ _ | fork h _ _ | execNone h _ _ | exec h _ _ =>
            rw [ht] at h
            cases h
      have hext := extend_eq x.current n inc m (hb.mapped.le hr.toValid hr.live) hlt
      rw [← hres] at hext
      by_cases hfit : n ≤ 2 ^ 63 - 24
      · obtain ⟨hle, hinc', hlt'⟩ := align8_fits hfit
        rw [← hinc] at hinc'
        have hstep : BrkStep L fs x.brk t (⟨s, x.setCurrent (x.current.extend n inc m (s.user 10))⟩ : Arena).brk := by
          refine ⟨hs, hmaps, fun inc' h => ?_, ?_⟩
          · obtain rfl : inc = inc' := by simpa using ht.symm.trans h
            omega
          · refine (x.lib_setCurrent _).trans ?_
            unfold Brk.libAfter
            simp only [ht]
            rfl
        obtain ⟨hok, hadd⟩ := BrkStep.ok hfs hx.brk hstep
        obtain ⟨hheap, hne, -⟩ := hadd inc ht
        -- the new break
        have hheap' : (x.setCurrent (x.current.extend n inc m (s.user 10)) x.machine.kernel.cur).lib.heapEnd =
            x.current.lib.brk + inc.toNat := hheap
        have hne' : (x.setCurrent (x.current.extend n inc m (s.user 10)) x.machine.kernel.cur).lib.heapEnd ≠ 0 := hne
        rw [setCurrent_self rfl, hext] at hheap' hne'
        have hbrk : (x.current.lib.sbrk inc (s.user 10)).brk = x.current.lib.brk + (align8 n + userBlockSize) := by
          rw [show (x.current.lib.sbrk inc (s.user 10)).brk = _ from if_neg hne', hheap']
          omega
        refine hgood ⟨hok, fun j => ?_⟩ hfit
        show ∃ bs fl, Blocks (x.setCurrent _ j) bs fl
        by_cases hj : j = x.machine.kernel.cur
        · rw [setCurrent_self hj.symm, hext]
          exact ⟨_, _, hu'.extend hle (by omega) hmem hbrk⟩
        · rw [setCurrent_of_ne hj]
          exact hx.blocks j
      · refine hbad (fun hok => ?_) hfit
        have hok' : (x.setCurrent _ i).Ok s.kernel i := hok i hlive
        rw [setCurrent_self hcur, hext] at hok'
        refine not_ok_of_large (p := x.current.lib.brk + userBlockSize) hr'.toValid hlive (Nat.lt_of_not_le hfit) ?_ hok'
        show _ ∈ x.current.hand n (x.current.lib.brk + userBlockSize)
        rw [ProcHeap.hand, if_neg (by unfold userBlockSize; omega)]
        exact List.mem_cons_self
  | @free p hp =>
      obtain ⟨fl', hfree⟩ := hu'.release (by omega) hp
      exact hgood (hx.setCurrent rfl ⟨bs, fl', hfree⟩) trivial
  | @write a v ha => exact hgood (hx.setCurrent rfl ⟨bs, fl, hu'.write ha⟩) trivial
  | @trap t s m hs hm ht =>
      obtain ⟨j, u, hproc, hlibs, hor⟩ := x.procAfter_cases L fs ht m (s.user 10)
      have hstep : BrkStep L fs x.brk t (⟨s, x.procAfter L fs t m⟩ : Arena).brk := by
        refine ⟨hs, hm, fun inc h => absurd h (ht inc), ?_⟩
        rw [hproc]
        exact (Function.comp_update ProcHeap.lib x.proc j u).trans hlibs.symm
      refine hgood ⟨(BrkStep.ok hfs hx.brk hstep).1, fun i => ?_⟩ trivial
      show ∃ bs fl, Blocks (x.procAfter L fs t m i) bs fl
      rw [hproc]
      by_cases hij : i = j
      · rw [hij, Function.update_self]
        rcases hor with ⟨j', rfl⟩ | rfl
        · exact hx.blocks j'
        · exact ⟨_, _, .fresh m⟩
      · rw [Function.update_of_ne hij]
        exact hx.blocks i

theorem Inv.start (hfs : ∀ f ∈ fs, f.2.Linked) (h : ArenaStart L fs x) : x.Inv L := by
  refine ⟨BrkStart.ok hfs ⟨h.start, funext fun i => ?_⟩, fun i => ?_⟩
  · obtain ⟨m, hm⟩ := h.proc i
    show (x.proc i).lib = {}
    rw [hm]
  · obtain ⟨m, hm⟩ := h.proc i
    rw [hm]
    exact ⟨_, _, .fresh m⟩

end Arena

/-- In a run all allocations are usable and apart, after every call, exactly when every size fits. -/
theorem mallocRun_iff {x₀ : Arena} (hfs : ∀ f ∈ fs, f.2.Linked) (h₀ : ArenaStart L fs x₀) :
    x₀.Ok ∧ ∀ l x, Run (fun x c x' => ArenaStep L fs x c x' ∧ x'.Ok) x₀ l x ↔
      Run (fun x c x' => ArenaStep L fs x c x' ∧ c.Fits) x₀ l x := by
  have hi := Arena.Inv.start hfs h₀
  exact ⟨hi.ok, fun l x => Run.and_iff (I := fun x => x.Inv L) (fun _ _ _ hi h => hi.step hfs h) hi⟩

/-- The first call of the shell. -/
theorem exists_firstMalloc (L : Layout) {n : Nat} (hn : n < 2 ^ 64) (hle : align8 n + userBlockSize ≤ 4096) :
    ∃ x₀ x, ArenaStart L tinyFs x₀ ∧ ArenaStep L tinyFs x₀ (.malloc n) x := by
  obtain ⟨s, t, s', F, hstart, hs, hreq, -, -⟩ :=
    Machine.exists_sbrk L (n := align8 n + userBlockSize) (by unfold userBlockSize; omega) hle
  obtain ⟨u, hu⟩ : ∃ u : ProcHeap, u = { heap := { mem := fun _ => 0 } } := ⟨_, rfl⟩
  have hblocks : Blocks u [] [] := by
    rw [hu]
    exact .fresh _
  have hbrk : u.lib.brk < 2 ^ 63 := by
    rw [hu]
    decide
  have hnat : (BitVec.ofNat 64 (align8 n + userBlockSize)).toNat = align8 n + userBlockSize := by
    rw [BitVec.toNat_ofNat, Nat.mod_eq_of_lt (by omega)]
  rcases hblocks.malloc hbrk n with hm | ⟨b, _, _, _, _, hb, -⟩
  · rw [BitVec.toInt_eq_toNat_of_lt (by omega), hnat] at hm
    exact ⟨⟨s, fun _ => u⟩, _, ⟨hstart, fun _ => ⟨_, hu⟩⟩, .sbrk (x := ⟨s, fun _ => u⟩) hn hm hs hreq fun _ _ => rfl⟩
  · cases hb

/-- `malloc(1)`. -/
theorem mallocRun_iff_first : ∃ x₀ x, ArenaStart .kernelMap tinyFs x₀ ∧
    Run (fun x c x' => ArenaStep .kernelMap tinyFs x c x' ∧ x'.Ok) x₀ [.malloc 1] x := by
  obtain ⟨x₀, x, h₀, hs⟩ := exists_firstMalloc .kernelMap (n := 1) (by decide) (by decide)
  exact ⟨x₀, x, h₀, ((mallocRun_iff tinyFs_linked h₀).2 _ _).mpr (.single ⟨hs, by show 1 ≤ _; decide⟩)⟩

/-- `malloc(2^64 - 1)` returns a block without bytes. -/
theorem mallocRun_wrap : ¬∀ (L : Layout) (fs : Initramfs) (x₀ x : Arena) (l : List ArenaCall),
    (∀ f ∈ fs, f.2.Linked) → ArenaStart L fs x₀ → Run (ArenaStep L fs) x₀ l x → x.Ok := by
  intro hall
  obtain ⟨x₀, x, h₀, hs⟩ := exists_firstMalloc .kernelMap (n := 2 ^ 64 - 1) (by decide) (by decide)
  have hok := hall _ _ _ _ _ tinyFs_linked h₀ (.single hs)
  have hfits := ((Arena.Inv.start tinyFs_linked h₀).step tinyFs_linked hs).1.mp hok
  exact absurd hfits (by show ¬_ ≤ _; decide)

end RiscvOs
