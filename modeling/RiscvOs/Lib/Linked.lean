import Mathlib

/-!
# Linked lists threaded through a store

A list is given by a successor map `next` and an end mark `nil`. `Linked next nil h l` says that the
chain from `h` visits the nodes of `l` and stops at `nil`; `OnChain next nil h x` says that the chain
from `h` visits `x`, also when it never stops.
-/

namespace LinkedList

variable {α : Type*} {next next' : α → α} {nil h x : α} {l l' : List α}

/-- The chain from `h` visits exactly the nodes of `l`, in this order, and then ends. -/
def Linked (next : α → α) (nil : α) : α → List α → Prop
  | h, [] => h = nil
  | h, x :: xs => h = x ∧ x ≠ nil ∧ Linked next nil (next x) xs

/-- The chain from `h` first visits the nodes of `l` and then comes to `t`. -/
def Segment (next : α → α) : α → List α → α → Prop
  | h, [], t => h = t
  | h, x :: xs, t => h = x ∧ Segment next (next x) xs t

/-- The chain from `h` visits `x`. -/
inductive OnChain (next : α → α) (nil : α) : α → α → Prop
  | here {h : α} : h ≠ nil → OnChain next nil h h
  | there {h x : α} : h ≠ nil → OnChain next nil (next h) x → OnChain next nil h x

@[simp] theorem linked_nil : Linked next nil h [] ↔ h = nil := Iff.rfl

@[simp] theorem linked_cons {xs : List α} :
    Linked next nil h (x :: xs) ↔ h = x ∧ x ≠ nil ∧ Linked next nil (next x) xs := Iff.rfl

theorem Linked.ne_nil (hl : Linked next nil h l) (hx : x ∈ l) : x ≠ nil := by
  induction l generalizing h with
  | nil => cases hx
  | cons y ys ih =>
      rcases List.mem_cons.mp hx with rfl | hx
      · exact hl.2.1
      · exact ih hl.2.2 hx

/-- The nodes visited are determined by the head. -/
theorem Linked.unique (hl : Linked next nil h l) (hl' : Linked next nil h l') : l = l' := by
  induction l generalizing h l' with
  | nil =>
      cases l' with
      | nil => rfl
      | cons y ys => exact absurd (hl'.1 ▸ hl) hl'.2.1
  | cons x xs ih =>
      cases l' with
      | nil => exact absurd (hl.1 ▸ hl') hl.2.1
      | cons y ys =>
          obtain rfl : x = y := hl.1 ▸ hl'.1
          rw [ih hl.2.2 hl'.2.2]

/-- The rest of a list from one of its nodes on is linked too. -/
theorem Linked.from_mem (hl : Linked next nil h l) (hx : x ∈ l) :
    ∃ pre suf, l = pre ++ x :: suf ∧ Linked next nil x (x :: suf) := by
  induction l generalizing h with
  | nil => cases hx
  | cons y ys ih =>
      rcases List.mem_cons.mp hx with rfl | hx
      · exact ⟨[], ys, rfl, rfl, hl.2⟩
      · obtain ⟨pre, suf, rfl, hs⟩ := ih hl.2.2 hx
        exact ⟨y :: pre, suf, rfl, hs⟩

/-- A chain that ends visits no node twice. -/
theorem Linked.nodup (hl : Linked next nil h l) : l.Nodup := by
  induction l generalizing h with
  | nil => exact List.nodup_nil
  | cons x xs ih =>
      refine List.nodup_cons.mpr ⟨fun hx => ?_, ih hl.2.2⟩
      -- the rest from the second visit of `x` is the whole list again, so it is not shorter
      obtain ⟨pre, suf, he, hs⟩ := hl.2.2.from_mem hx
      have hsame : xs = suf := hl.2.2.unique hs.2.2
      have := congrArg List.length he
      rw [hsame] at this
      simp at this
      omega

/-- A list survives every change of `next` outside its nodes. -/
theorem Linked.congr (hl : Linked next nil h l) (he : ∀ y ∈ l, next' y = next y) :
    Linked next' nil h l := by
  induction l generalizing h with
  | nil => exact hl
  | cons x xs ih =>
      refine ⟨hl.1, hl.2.1, ?_⟩
      rw [he x (by simp)]
      exact ih hl.2.2 fun y hy => he y (by simp [hy])

/-- A new node in front. -/
theorem Linked.push (hl : Linked next nil h l) (hx : x ≠ nil) (hn : next' x = h)
    (he : ∀ y ∈ l, next' y = next y) : Linked next' nil x (x :: l) :=
  ⟨rfl, hx, hn ▸ hl.congr he⟩

/-- The chain behind a node. -/
theorem Linked.behind (hl : Linked next nil h (l ++ x :: l')) : Linked next nil (next x) l' := by
  induction l generalizing h with
  | nil => exact hl.2.2
  | cons y ys ih => exact ih hl.2.2

/-- Another chain behind a node. -/
theorem Linked.relink {l'' : List α} (hl : Linked next nil h (l ++ x :: l')) (he : ∀ y ∈ l, next' y = next y)
    (hx : Linked next' nil (next' x) l'') : Linked next' nil h (l ++ x :: l'') := by
  induction l generalizing h with
  | nil => exact ⟨hl.1, hl.2.1, hx⟩
  | cons y ys ih =>
      refine ⟨hl.1, hl.2.1, ?_⟩
      rw [he y (by simp)]
      exact ih hl.2.2 fun z hz => he z (by simp [hz])

/-- A segment survives every change of `next` outside its nodes. -/
theorem Segment.congr {t : α} (hs : Segment next h l t) (he : ∀ y ∈ l, next' y = next y) :
    Segment next' h l t := by
  induction l generalizing h with
  | nil => exact hs
  | cons x xs ih =>
      refine ⟨hs.1, ?_⟩
      rw [he x (by simp)]
      exact ih hs.2 fun y hy => he y (by simp [hy])

/-- The head of a segment is its first node, or the node behind it. -/
theorem Segment.head {t : α} {P : α → Prop} (hs : Segment next h l t) (hl : ∀ x ∈ l, P x) (ht : P t) : P h := by
  cases l with
  | nil => exact hs ▸ ht
  | cons x xs => exact hs.1 ▸ hl x (by simp)

/-- On a chain that ends, the nodes visited are the members of its list. -/
theorem Linked.onChain_iff (hl : Linked next nil h l) : OnChain next nil h x ↔ x ∈ l := by
  constructor
  · intro hc
    induction hc generalizing l with
    | @here h hne =>
        cases l with
        | nil => exact absurd hl hne
        | cons y ys => simp [hl.1]
    | @there h x hne _ ih =>
        cases l with
        | nil => exact absurd hl hne
        | cons y ys => obtain ⟨rfl, _, hl⟩ := hl; simp [ih hl]
  · intro hx
    induction l generalizing h with
    | nil => cases hx
    | cons y ys ih =>
        obtain ⟨rfl, hne, hl⟩ := hl
        rcases List.mem_cons.mp hx with rfl | hx
        · exact .here hne
        · exact .there hne (ih hl hx)

end LinkedList
