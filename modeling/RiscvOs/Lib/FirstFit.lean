import Mathlib

/-!
# First fit on a list of blocks

The blocks of a heap in the order of their addresses, each with a header of `w` bytes. A request takes the first
free block that is large enough, and splits it when the rest has room for a header and `r` bytes. A block that is
released takes in the free block behind it, but not the one in front of it.
-/

namespace FirstFit

structure Block where
  size : Nat
  free : Bool
  deriving DecidableEq, Repr

variable {w r n a p q : Nat} {b c : Block} {bs bs' pre post busy rest : List Block} {ps : List Nat}

/-- The bytes of the blocks with their headers. -/
def span (w : Nat) (bs : List Block) : Nat := (bs.map fun b => w + b.size).sum

/-- What becomes of a free block of which `n` bytes are taken. -/
def cut (w r n : Nat) (b : Block) : List Block :=
  if n + w + r ≤ b.size then [⟨n, false⟩, ⟨b.size - n - w, true⟩] else [⟨b.size, false⟩]

/-- A request of `n` bytes. The first block is at `a`. -/
def alloc (w r n : Nat) : Nat → List Block → Option (Nat × List Block)
  | _, [] => none
  | a, b :: bs =>
    if b.free ∧ n ≤ b.size then some (a, cut w r n b ++ bs)
    else (alloc w r n (a + w + b.size) bs).map fun x => (x.1, b :: x.2)

/-- The block `b` becomes free in front of the others. -/
def join (w : Nat) (b : Block) : List Block → List Block
  | [] => [⟨b.size, true⟩]
  | c :: bs => if c.free then ⟨b.size + w + c.size, true⟩ :: bs else ⟨b.size, true⟩ :: c :: bs

/-- The block at `p` is released. -/
def release (w p : Nat) : Nat → List Block → List Block
  | _, [] => []
  | a, b :: bs => if a = p then join w b bs else b :: release w p (a + w + b.size) bs

@[simp] theorem span_nil : span w [] = 0 := rfl

@[simp] theorem span_cons : span w (b :: bs) = w + b.size + span w bs := by simp [span]

@[simp] theorem span_append : span w (bs ++ bs') = span w bs + span w bs' := by simp [span]

theorem join_free (h : c.free = true) : join w b (c :: bs) = ⟨b.size + w + c.size, true⟩ :: bs := if_pos h

theorem join_taken (h : c.free = false) : join w b (c :: bs) = ⟨b.size, true⟩ :: c :: bs :=
  if_neg (by rw [h]; decide)

/-! ## One request -/

/-- No block is large enough, or the first one that is large enough is cut. -/
theorem alloc_eq_none : alloc w r n a bs = none ↔ ∀ b ∈ bs, b.free → b.size < n := by
  induction bs generalizing a with
  | nil => simp [alloc]
  | cons b bs ih =>
      rw [List.forall_mem_cons]
      unfold alloc
      split
      · rename_i h
        exact iff_of_false (by simp) fun h' => absurd (h'.1 h.1) (not_lt.mpr h.2)
      · rename_i h
        rw [Option.map_eq_none_iff, ih]
        exact (and_iff_right fun hf => not_le.mp fun hn => h ⟨hf, hn⟩).symm

theorem alloc_eq_some (h : alloc w r n a bs = some (p, bs')) : ∃ pre b post, bs = pre ++ b :: post ∧
    p = a + span w pre ∧ b.free ∧ n ≤ b.size ∧ (∀ c ∈ pre, c.free → c.size < n) ∧
      bs' = pre ++ (cut w r n b ++ post) := by
  induction bs generalizing a bs' with
  | nil => cases h
  | cons b bs ih =>
      unfold alloc at h
      split at h
      · rename_i hb
        simp only [Option.some.injEq, Prod.mk.injEq] at h
        obtain ⟨rfl, rfl⟩ := h
        exact ⟨[], b, bs, rfl, rfl, hb.1, hb.2, by simp, rfl⟩
      · rename_i hb
        obtain ⟨⟨p', bs₁⟩, h1, he⟩ := Option.map_eq_some_iff.mp h
        simp only [Prod.mk.injEq] at he
        obtain ⟨rfl, rfl⟩ := he
        obtain ⟨pre, c, post, rfl, rfl, hf, hn, hpre, rfl⟩ := ih h1
        refine ⟨b :: pre, c, post, rfl, by rw [span_cons]; omega, hf, hn, ?_, rfl⟩
        rw [List.forall_mem_cons]
        exact ⟨fun hbf => not_le.mp fun hn' => hb ⟨hbf, hn'⟩, hpre⟩

/-- A request passes over the blocks that are taken. -/
theorem alloc_busy (h : ∀ b ∈ busy, b.free = false) :
    alloc w r n a (busy ++ rest) = (alloc w r n (a + span w busy) rest).map fun x => (x.1, busy ++ x.2) := by
  induction busy generalizing a with
  | nil => simp
  | cons b busy ih =>
      obtain ⟨hb, hbusy⟩ := List.forall_mem_cons.mp h
      rw [List.cons_append, alloc, if_neg (by simp [hb]), ih hbusy, Option.map_map, span_cons,
        show a + w + b.size + span w busy = a + (w + b.size + span w busy) by omega]
      rfl

/-- The block at its address is released. -/
theorem release_middle (hw : 0 < w) :
    release w (a + span w pre) a (pre ++ b :: post) = pre ++ join w b post := by
  induction pre generalizing a with
  | nil => simp [release]
  | cons c pre ih =>
      rw [List.cons_append, release, if_neg (by rw [span_cons]; omega), List.cons_append,
        show a + span w (c :: pre) = a + w + c.size + span w pre by rw [span_cons]; omega, ih]

/-! ## Last in, first out -/

/-- The blocks that are taken, at the addresses `ps` in reverse order, and no free one between them. -/
inductive Stack (w a : Nat) : List Nat → List Block → Prop
  | nil : Stack w a [] []
  | push {ps : List Nat} {busy : List Block} (h : Stack w a ps busy) (n : Nat) :
      Stack w a ((a + span w busy) :: ps) (busy ++ [⟨n, false⟩])

/-- At most one block, and that is free. -/
def Tail (bs : List Block) : Prop := bs = [] ∨ ∃ n, bs = [⟨n, true⟩]

/-- The taken blocks lie one behind the other, with all of the free space behind them. -/
def Stacked (w a : Nat) (ps : List Nat) (bs : List Block) : Prop :=
  ∃ busy rest, bs = busy ++ rest ∧ Stack w a ps busy ∧ Tail rest

theorem Stack.taken (h : Stack w a ps busy) : ∀ b ∈ busy, b.free = false := by
  induction h with
  | nil => simp
  | push _ n ih =>
      intro b hb
      rcases List.mem_append.mp hb with hb | hb
      · exact ih b hb
      · rw [List.mem_singleton.mp hb]

/-- A request is served from the end. -/
theorem Stacked.alloc (h : Stacked w a ps bs) (hs : alloc w r n a bs = some (p, bs')) :
    Stacked w a (p :: ps) bs' := by
  obtain ⟨busy, rest, rfl, hstack, hrest⟩ := h
  rw [alloc_busy hstack.taken] at hs
  obtain ⟨⟨p', bs₁⟩, h1, he⟩ := Option.map_eq_some_iff.mp hs
  simp only [Prod.mk.injEq] at he
  obtain ⟨rfl, rfl⟩ := he
  rcases hrest with rfl | ⟨m, rfl⟩
  · cases h1
  · obtain ⟨pre, b, post, hsplit, rfl, -, -, -, rfl⟩ := alloc_eq_some h1
    obtain ⟨rfl, rfl, rfl⟩ : pre = [] ∧ b = ⟨m, true⟩ ∧ post = [] := by
      cases pre with
      | nil => simpa [eq_comm] using hsplit
      | cons c pre => simp at hsplit
    rw [span_nil, Nat.add_zero]
    unfold cut
    split
    · exact ⟨busy ++ [⟨n, false⟩], [⟨m - n - w, true⟩], by simp, hstack.push n, .inr ⟨_, rfl⟩⟩
    · exact ⟨busy ++ [⟨m, false⟩], [], by simp, hstack.push m, .inl rfl⟩

/-- The last block is given back to the end. -/
theorem Stacked.release (hw : 0 < w) (h : Stacked w a (p :: ps) bs) : Stacked w a ps (release w p a bs) := by
  obtain ⟨busy, rest, rfl, hstack, hrest⟩ := h
  cases hstack with
  | @push _ busy hstack n =>
      rw [List.append_assoc, List.singleton_append, release_middle hw]
      refine ⟨busy, join w ⟨n, false⟩ rest, rfl, hstack, .inr ?_⟩
      rcases hrest with rfl | ⟨m, rfl⟩
      · exact ⟨n, rfl⟩
      · exact ⟨n + w + m, rfl⟩

/-- When all blocks have been released, there is one block, and it is as large as the heap allows. -/
theorem Stacked.single (h : Stacked w a [] bs) (hs : 0 < span w bs) : bs = [⟨span w bs - w, true⟩] := by
  obtain ⟨busy, rest, rfl, hstack, hrest⟩ := h
  cases hstack with
  | nil =>
      rcases hrest with rfl | ⟨m, rfl⟩
      · simp at hs
      · simp

end FirstFit
