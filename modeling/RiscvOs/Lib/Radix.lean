import Mathlib

/-!
# Radix trees over a store of nodes

A node `x` has an entry `ent x i` for every index `i`. On the upper levels an entry decodes by `nx` to
the next node, on the lowest level by `lf` to the item stored there. `held n r q` is what the tree of
`n + 1` levels under `r` holds at the path `q`: a node for a path of at most `n` indices, an item for
one of `n + 1`. A tree whose paths all hold different things has no shared node and no cycle.
-/

namespace Radix

variable {ν ι ε : Type*} {ent ent' : ν → ι → ε} {nx lf : ε → Option ν} {n : Nat} {r x y : ν} {i : ι}
  {p q w : List ι}

/-- What the tree of `n + 1` levels under `r` holds at a path. -/
def held (ent : ν → ι → ε) (nx lf : ε → Option ν) : Nat → ν → List ι → Option ν
  | 0, r, p => match p with
    | [] => some r
    | [i] => lf (ent r i)
    | _ :: _ :: _ => none
  | n + 1, r, p => match p with
    | [] => some r
    | i :: p => (nx (ent r i)).bind fun x => held ent nx lf n x p

/-- No two paths hold the same thing. -/
def Distinct (ent : ν → ι → ε) (nx lf : ε → Option ν) (n : Nat) (r : ν) : Prop :=
  ∀ p q x, held ent nx lf n r p = some x → held ent nx lf n r q = some x → p = q

@[simp] theorem held_nil : held ent nx lf n r [] = some r := by
  cases n <;> rfl

@[simp] theorem held_leaf : held ent nx lf 0 r [i] = lf (ent r i) := rfl

@[simp] theorem held_leaf_long {j : ι} : held ent nx lf 0 r (i :: j :: p) = none := rfl

@[simp] theorem held_cons :
    held ent nx lf (n + 1) r (i :: p) = (nx (ent r i)).bind fun x => held ent nx lf n x p := rfl

/-- A path that holds something is at most as long as the tree is deep. -/
theorem held_length (h : held ent nx lf n r q = some x) : q.length ≤ n + 1 := by
  induction n generalizing r q with
  | zero =>
      match q with
      | [] => simp
      | [_] => simp
      | _ :: _ :: _ => simp at h
  | succ n ih =>
      cases q with
      | nil => simp
      | cons j q =>
          obtain ⟨y, _, hy⟩ := Option.bind_eq_some_iff.mp h
          have := ih hy
          simp only [List.length_cons]
          omega

/-- Everything held has a property that the root and all that entries decode to have. -/
theorem held_all {P : ν → Prop} (hr : P r) (hn : ∀ e y, nx e = some y → P y)
    (hl : ∀ e y, lf e = some y → P y) (h : held ent nx lf n r q = some x) : P x := by
  induction n generalizing r q with
  | zero =>
      match q with
      | [] => exact Option.some.inj h ▸ hr
      | [_] => exact hl _ _ h
      | _ :: _ :: _ => simp at h
  | succ n ih =>
      cases q with
      | nil => exact Option.some.inj h ▸ hr
      | cons j q =>
          obtain ⟨y, hy, h⟩ := Option.bind_eq_some_iff.mp h
          exact ih (hn _ _ hy) h

/-- A path that ends above the items does not depend on how items are decoded. -/
theorem held_short {lf' : ε → Option ν} (h : q.length ≤ n) :
    held ent nx lf n r q = held ent nx lf' n r q := by
  induction n generalizing r q with
  | zero =>
      obtain rfl : q = [] := List.length_eq_zero_iff.mp (by omega)
      rfl
  | succ n ih =>
      cases q with
      | nil => rfl
      | cons j q =>
          simp only [List.length_cons, Nat.add_le_add_iff_right] at h
          simp only [held_cons]
          congr 1
          funext z
          exact ih h

/-- A path through a node. -/
theorem held_append (hp : p.length ≤ n) :
    held ent nx lf n r (p ++ q) =
      (held ent nx lf n r p).bind fun x => held ent nx lf (n - p.length) x q := by
  induction p generalizing n r with
  | nil => simp
  | cons j p ih =>
      cases n with
      | zero => simp at hp
      | succ n =>
          simp only [List.length_cons, Nat.add_le_add_iff_right] at hp
          simp only [List.cons_append, held_cons, Option.bind_assoc, List.length_cons,
            Nat.add_sub_add_right]
          congr 1
          funext z
          exact ih hp

/-- What a path holds depends only on the entries along it. `b` names the entries that may differ. -/
theorem held_congr {b : List ι → Prop}
    (he : ∀ q y j, q.length ≤ n → held ent nx lf n r q = some y → ¬b (q ++ [j]) → ent' y j = ent y j)
    (hq : ∀ q', q' <+: q → ¬b q') : held ent' nx lf n r q = held ent nx lf n r q := by
  induction n generalizing r q b with
  | zero =>
      match q with
      | [] => simp
      | [j] =>
          simp only [held_leaf]
          rw [he [] r j (by simp) (by simp) (hq [j] (List.prefix_refl _))]
      | _ :: _ :: _ => simp
  | succ n ih =>
      cases q with
      | nil => simp
      | cons j q =>
          have h0 : ent' r j = ent r j :=
            he [] r j (by simp) (by simp) (hq [j] (by simp))
          simp only [held_cons, h0]
          cases hx : nx (ent r j) with
          | none => rfl
          | some z =>
              refine ih (b := fun q' => b (j :: q')) (fun q' y k hl hy hb => ?_) fun q' hp => ?_
              · exact he (j :: q') y k (by simp only [List.length_cons]; omega) (by simp [hx, hy]) hb
              · exact hq (j :: q') (by simpa using hp)

/-- Only the entry `i` of the node at `p` differs: every path not through it holds what it held. -/
theorem held_write
    (he : ∀ q y j, q.length ≤ n → held ent nx lf n r q = some y → (q = p → j ≠ i) →
      ent' y j = ent y j)
    (hq : ¬(p ++ [i]) <+: q) : held ent' nx lf n r q = held ent nx lf n r q := by
  refine held_congr (b := fun w => w = p ++ [i]) (fun q' y j hl hy hb => ?_) fun q' hp hb => ?_
  · exact he q' y j hl hy fun e hj => hb (by rw [e, hj])
  · exact hq (hb ▸ hp)

/-- Below a path that holds nothing there is nothing. -/
theorem held_none_of_shorter (h : held ent nx lf n r w = none) (hp : w <+: q) :
    held ent nx lf n r q = none := by
  obtain ⟨t, rfl⟩ := hp
  by_cases hw : w.length ≤ n
  · rw [held_append hw, h, Option.bind_none]
  · cases hq : held ent nx lf n r (w ++ t) with
    | none => rfl
    | some x =>
        have hl := held_length hq
        simp only [List.length_append] at hl
        have : t = [] := List.length_eq_zero_iff.mp (by omega)
        rw [this, List.append_nil, h] at hq
        cases hq

/-- Below a node without entries there is nothing. -/
theorem held_none_of_empty (hx : held ent nx lf n r w = some x) (hn : ∀ j, nx (ent x j) = none)
    (hl : ∀ j, lf (ent x j) = none) (hp : w <+: q) (hne : q ≠ w) : held ent nx lf n r q = none := by
  obtain ⟨t, rfl⟩ := hp
  cases t with
  | nil => simp at hne
  | cons j t =>
      refine held_none_of_shorter (w := w ++ [j]) ?_ (by simp)
      by_cases hw : w.length ≤ n
      · rw [held_append hw, hx, Option.bind_some]
        cases n - w.length with
        | zero => simp [hl]
        | succ k => simp [hn]
      · cases hq : held ent nx lf n r (w ++ [j]) with
        | none => rfl
        | some y =>
            have := held_length hq
            simp only [List.length_append, List.length_cons, List.length_nil] at this
            omega

/-- The things held stay different when one path `w` gets a new content that nothing else holds. -/
theorem Distinct.replace (hd : Distinct ent nx lf n r)
    (hs : ∀ q, ¬w <+: q → held ent' nx lf n r q = held ent nx lf n r q)
    (hb : ∀ q, w <+: q → q ≠ w → held ent' nx lf n r q = none)
    (hv : ∀ x, held ent' nx lf n r w = some x → ∀ q, held ent nx lf n r q = some x → w <+: q) :
    Distinct ent' nx lf n r := by
  -- a path below `w` holds nothing now, so a path that holds something is `w` or not below it
  have key : ∀ p x, held ent' nx lf n r p = some x →
      p = w ∨ ¬w <+: p ∧ held ent nx lf n r p = some x := by
    intro p x hp
    by_cases hw : w <+: p
    · by_cases he : p = w
      · exact .inl he
      · rw [hb p hw he] at hp; cases hp
    · exact .inr ⟨hw, hs p hw ▸ hp⟩
  intro p q x hp hq
  rcases key p x hp with rfl | ⟨hnp, hp'⟩
  · rcases key q x hq with rfl | ⟨hnq, hq'⟩
    · rfl
    · exact absurd (hv x hp q hq') hnq
  · rcases key q x hq with rfl | ⟨_, hq'⟩
    · exact absurd (hv x hq p hp') hnp
    · exact hd p q x hp' hq'

/-- A tree that holds different things everywhere does so below each of its entries. -/
theorem Distinct.child (hd : Distinct ent nx lf (n + 1) r) (hx : nx (ent r i) = some x) :
    Distinct ent nx lf n x := by
  intro p q y hp hq
  have := hd (i :: p) (i :: q) y (by simp [hx, hp]) (by simp [hx, hq])
  exact (List.cons.inj this).2

end Radix
