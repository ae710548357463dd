import Mathlib

/-!
# Computations that may fail

Rules for `Except`: the two steps of a bind that succeeds, and the invariant of a loop, once for a loop
that is known to succeed and once with the proof that it does.
-/

namespace Outcome

variable {ε : Type*} {α β σ : Type}

@[simp] theorem bind_eq_ok {x : Except ε α} {f : α → Except ε β} {b : β} :
    (x >>= f) = .ok b ↔ ∃ a, x = .ok a ∧ f a = .ok b := by
  cases x with
  | error e => simp [bind, Except.bind]
  | ok a => simp [bind, Except.bind]

@[simp] theorem ok_bind {a : α} {f : α → Except ε β} : (Except.ok a >>= f) = f a := rfl

/-- The test that guards a computation has failed when the computation succeeds. -/
theorem ite_error_eq_ok {c : Prop} [Decidable c] {e : ε} {x : Except ε α} {a : α} :
    (if c then .error e else x) = .ok a ↔ ¬c ∧ x = .ok a := by
  by_cases hc : c <;> simp [hc]

variable {f : σ → α → Except ε σ} {s s' : σ} {l : List α}

/-- An invariant of the loop body holds after the loop. `I` also sees the elements done so far. -/
theorem foldlM_inv {I : List α → σ → Prop} (h0 : I [] s)
    (hstep : ∀ pre x post t t', l = pre ++ x :: post → I pre t → f t x = .ok t' → I (pre ++ [x]) t')
    (h : l.foldlM f s = .ok s') : I l s' := by
  suffices key : ∀ post pre t, l = pre ++ post → I pre t → post.foldlM f t = .ok s' → I l s' from
    key l [] s rfl h0 h
  intro post
  induction post with
  | nil =>
      intro pre t hl hi ht
      simp only [List.foldlM_nil, pure, Except.pure, Except.ok.injEq] at ht
      rw [hl, List.append_nil, ← ht]
      exact hi
  | cons x post ih =>
      intro pre t hl hi ht
      rw [List.foldlM_cons] at ht
      obtain ⟨u, hu, ht⟩ := bind_eq_ok.mp ht
      exact ih (pre ++ [x]) u (by simp [hl]) (hstep pre x post t u hl hi hu) ht

/-- A loop whose body succeeds and keeps the invariant succeeds and keeps the invariant. -/
theorem foldlM_total {I : List α → σ → Prop} (h0 : I [] s)
    (hstep : ∀ pre x post t, l = pre ++ x :: post → I pre t → ∃ t', f t x = .ok t' ∧ I (pre ++ [x]) t') :
    ∃ s', l.foldlM f s = .ok s' ∧ I l s' := by
  suffices key : ∀ post pre t, l = pre ++ post → I pre t → ∃ s', post.foldlM f t = .ok s' ∧ I l s' from
    key l [] s rfl h0
  intro post
  induction post with
  | nil =>
      intro pre t hl hi
      exact ⟨t, rfl, by rw [hl, List.append_nil]; exact hi⟩
  | cons x post ih =>
      intro pre t hl hi
      obtain ⟨u, hu, hi'⟩ := hstep pre x post t hl hi
      obtain ⟨s', hs', hl'⟩ := ih (pre ++ [x]) u (by simp [hl]) hi'
      exact ⟨s', by rw [List.foldlM_cons, hu, ok_bind, hs'], hl'⟩

end Outcome
