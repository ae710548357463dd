import Mathlib

/-!
# Blocks that tile an interval

Blocks lie one behind the other. A block at `x` has a header of `w` bytes, and `size x` bytes behind it; the
next block starts where they end. A block may be split in two, and two neighbours may become one.
-/

namespace Tiling

variable {w n : Nat} {size size' : Nat → Nat} {a b c e x y : Nat} {bs pre post l l' : List Nat}

/-- The blocks at the addresses of the list fill the interval from `a` to `b`. -/
def Tiles (w : Nat) (size : Nat → Nat) : Nat → List Nat → Nat → Prop
  | a, [], b => a = b
  | a, x :: xs, b => x = a ∧ Tiles w size (x + w + size x) xs b

@[simp] theorem tiles_nil : Tiles w size a [] b ↔ a = b := Iff.rfl

@[simp] theorem tiles_cons : Tiles w size a (x :: l) b ↔ x = a ∧ Tiles w size (x + w + size x) l b := Iff.rfl

theorem tiles_append : Tiles w size a (l ++ l') c ↔ ∃ b, Tiles w size a l b ∧ Tiles w size b l' c := by
  induction l generalizing a with
  | nil => simp
  | cons x xs ih =>
      simp only [List.cons_append, tiles_cons, ih]
      constructor
      · rintro ⟨hx, b, h, h'⟩
        exact ⟨b, ⟨hx, h⟩, h'⟩
      · rintro ⟨b, ⟨hx, h⟩, h'⟩
        exact ⟨hx, b, h, h'⟩

/-- The blocks around the one at `x`. -/
theorem tiles_middle : Tiles w size a (pre ++ x :: post) c ↔
    Tiles w size a pre x ∧ Tiles w size (x + w + size x) post c := by
  rw [tiles_append]
  constructor
  · rintro ⟨b, h, rfl, h'⟩
    exact ⟨h, h'⟩
  · rintro ⟨h, h'⟩
    exact ⟨x, h, rfl, h'⟩

theorem Tiles.congr (h : Tiles w size a l b) (hs : ∀ x ∈ l, size' x = size x) : Tiles w size' a l b := by
  induction l generalizing a with
  | nil => exact h
  | cons x xs ih =>
      refine ⟨h.1, ?_⟩
      rw [hs x (by simp)]
      exact ih h.2 fun y hy => hs y (by simp [hy])

theorem Tiles.le (h : Tiles w size a l b) : a ≤ b := by
  induction l generalizing a with
  | nil => exact h.le
  | cons x xs ih =>
      have := ih h.2
      have := h.1
      omega

/-- Each block lies in the interval. -/
theorem Tiles.inside (h : Tiles w size a l b) (hx : x ∈ l) : a ≤ x ∧ x + w + size x ≤ b := by
  obtain ⟨pre, post, rfl⟩ := List.mem_iff_append.mp hx
  obtain ⟨h1, h2⟩ := tiles_middle.mp h
  exact ⟨h1.le, h2.le⟩

/-- The blocks do not overlap. -/
theorem Tiles.disjoint (h : Tiles w size a l b) (hx : x ∈ l) (hy : y ∈ l) (hne : x ≠ y) :
    x + w + size x ≤ y ∨ y + w + size y ≤ x := by
  obtain ⟨pre, post, rfl⟩ := List.mem_iff_append.mp hx
  obtain ⟨h1, h2⟩ := tiles_middle.mp h
  rcases List.mem_append.mp hy with hy | hy
  · exact .inr (h1.inside hy).2
  · exact .inl (h2.inside ((List.mem_cons.mp hy).resolve_left hne.symm)).1

theorem Tiles.nodup (hw : 0 < w) (h : Tiles w size a l b) : l.Nodup := by
  induction l generalizing a with
  | nil => exact List.nodup_nil
  | cons x xs ih =>
      refine List.nodup_cons.mpr ⟨fun hx => ?_, ih h.2⟩
      have := (h.2.inside hx).1
      omega

/-- The sizes tell where the blocks lie. -/
theorem Tiles.unique (hw : 0 < w) (h : Tiles w size a l b) (h' : Tiles w size a l' b) : l = l' := by
  induction l generalizing a l' with
  | nil =>
      cases l' with
      | nil => rfl
      | cons y ys =>
          have hle := h'.2.le
          have h1 := tiles_nil.mp h
          have h2 := h'.1
          omega
  | cons x xs ih =>
      cases l' with
      | nil =>
          have hle := h.2.le
          have h1 := tiles_nil.mp h'
          have h2 := h.1
          omega
      | cons y ys =>
          obtain ⟨rfl, h⟩ := h
          obtain ⟨rfl, h'⟩ := h'
          rw [ih h h']

/-- As many headers fit into the interval. -/
theorem Tiles.length_le (h : Tiles w size a l b) : a + w * l.length ≤ b := by
  induction l generalizing a with
  | nil => exact h.le
  | cons x xs ih =>
      have := ih h.2
      have hx := h.1
      rw [List.length_cons, Nat.mul_succ]
      omega

/-- The addresses of the blocks are multiples of `n` when their sizes are. -/
theorem Tiles.dvd (h : Tiles w size a l b) (hw : n ∣ w) (ha : n ∣ a) (hs : ∀ x ∈ l, n ∣ size x) (hx : x ∈ l) :
    n ∣ x := by
  induction l generalizing a with
  | nil => cases hx
  | cons y ys ih =>
      obtain ⟨rfl, ht⟩ := h
      rcases List.mem_cons.mp hx with rfl | hx
      · exact ha
      · exact ih ht (dvd_add (dvd_add ha hw) (hs y (by simp))) (fun z hz => hs z (by simp [hz])) hx

/-- A block is split: the first part keeps the address. -/
theorem Tiles.split (h : Tiles w size a (pre ++ x :: post) b) (hy : y = x + w + size' x)
    (hsum : size' x + w + size' y = size x) (hpre : ∀ z ∈ pre, size' z = size z)
    (hpost : ∀ z ∈ post, size' z = size z) : Tiles w size' a (pre ++ x :: y :: post) b := by
  obtain ⟨h1, h2⟩ := tiles_middle.mp h
  refine tiles_middle.mpr ⟨h1.congr hpre, hy, ?_⟩
  rw [show y + w + size' y = x + w + size x by omega]
  exact h2.congr hpost

/-- Two neighbours become one. -/
theorem Tiles.merge (h : Tiles w size a (pre ++ x :: y :: post) b) (hsum : size' x = size x + w + size y)
    (hpre : ∀ z ∈ pre, size' z = size z) (hpost : ∀ z ∈ post, size' z = size z) :
    Tiles w size' a (pre ++ x :: post) b := by
  obtain ⟨h1, hy, h2⟩ := tiles_middle.mp h
  refine tiles_middle.mpr ⟨h1.congr hpre, ?_⟩
  rw [show x + w + size' x = y + w + size y by omega]
  exact h2.congr hpost

/-- A block behind the last one. -/
theorem Tiles.snoc (h : Tiles w size a l b) : Tiles w size a (l ++ [b]) (b + w + size b) :=
  tiles_middle.mpr ⟨h, rfl⟩

/-- The block behind a block is there, unless the interval ends. -/
theorem Tiles.next_mem (h : Tiles w size a l b) (hx : x ∈ l) (hne : x + w + size x ≠ b) :
    x + w + size x ∈ l := by
  obtain ⟨pre, post, rfl⟩ := List.mem_iff_append.mp hx
  obtain ⟨-, h2⟩ := tiles_middle.mp h
  cases post with
  | nil => exact absurd h2 hne
  | cons y ys =>
      rw [← h2.1]
      simp

end Tiling
