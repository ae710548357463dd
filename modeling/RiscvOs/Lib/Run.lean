import Mathlib

/-!
# Runs of a labelled transition system

A run is a list of labels with a step for each of them. A property that holds at the start and that every
step keeps holds after every run; since the beginning of a run is a run, it holds in every state reached.
-/

namespace Lts

variable {σ α : Type*} {step step' : σ → α → σ → Prop} {s s' s'' : σ} {a : α} {l l' : List α}

/-- `l` leads from `s` to `s'`. -/
inductive Run (step : σ → α → σ → Prop) : σ → List α → σ → Prop
  | nil {s : σ} : Run step s [] s
  | cons {s s' s'' : σ} {a : α} {l : List α} : step s a s' → Run step s' l s'' → Run step s (a :: l) s''

theorem Run.single (h : step s a s') : Run step s [a] s' := .cons h .nil

theorem Run.append (h : Run step s l s') (h' : Run step s' l' s'') : Run step s (l ++ l') s'' := by
  induction h with
  | nil => exact h'
  | cons hs _ ih => exact .cons hs (ih h')

/-- What every step keeps, a run keeps. -/
theorem Run.invariant {I : σ → Prop} (hstep : ∀ s a s', I s → step s a s' → I s')
    (h : Run step s l s') (hs : I s) : I s' := by
  induction h with
  | nil => exact hs
  | cons ha _ ih => exact ih (hstep _ _ _ hs ha)

/-- A run of one system is a run of another that can make the same steps. -/
theorem Run.mono (hstep : ∀ s a s', step s a s' → step' s a s') (h : Run step s l s') :
    Run step' s l s' := by
  induction h with
  | nil => exact .nil
  | cons ha _ ih => exact .cons (hstep _ _ _ ha) ih

/-- Where a step has `P` exactly when it has `Q`, so do runs. -/
theorem Run.and_iff {I : σ → Prop} {P Q : σ → α → σ → Prop}
    (hstep : ∀ s a s', I s → step s a s' → (P s a s' ↔ Q s a s') ∧ (P s a s' → I s')) (hs : I s) :
    Run (fun s a s' => step s a s' ∧ P s a s') s l s' ↔ Run (fun s a s' => step s a s' ∧ Q s a s') s l s' := by
  constructor <;> intro h <;> induction h with
  | nil => exact .nil
  | cons ha _ ih =>
      obtain ⟨hiff, hnext⟩ := hstep _ _ _ hs ha.1
      first
        | exact .cons ⟨ha.1, hiff.mp ha.2⟩ (ih (hnext ha.2))
        | exact .cons ⟨ha.1, hiff.mpr ha.2⟩ (ih (hnext (hiff.mpr ha.2)))

/-- A relation to the start that every step keeps, and that holds of the start itself, relates the start
to the end of every run. -/
theorem Run.relation {I : σ → Prop} {R : σ → σ → Prop} (hstep : ∀ s a s', I s → step s a s' → I s')
    (hrefl : ∀ s, R s s) (htrans : ∀ s a s' s'', I s → step s a s' → R s' s'' → R s s'')
    (h : Run step s l s') (hs : I s) : R s s' := by
  induction h with
  | nil => exact hrefl _
  | cons ha _ ih => exact htrans _ _ _ _ hs ha (ih (hstep _ _ _ hs ha))

/-- A property that a step leaves for `Q` only: it holds in every state of a run, or in every state up to a
step that is in `Q`. -/
theorem Run.until {P : σ → Prop} {Q : σ → α → σ → Prop}
    (hstep : ∀ s a s', P s → step s a s' → P s' ∨ Q s a s') (h : Run step s l s') (hs : P s) :
    Run (fun s a s' => step s a s' ∧ P s') s l s' ∨
      ∃ l₁ a l₂ s₁ s₂, l = l₁ ++ a :: l₂ ∧ Run (fun s a s' => step s a s' ∧ P s') s l₁ s₁ ∧
        step s₁ a s₂ ∧ Q s₁ a s₂ ∧ Run step s₂ l₂ s' := by
  induction h with
  | nil => exact .inl .nil
  | cons ha h ih =>
      rcases hstep _ _ _ hs ha with hp | hq
      · rcases ih hp with hr | ⟨l₁, b, l₂, s₁, s₂, rfl, h1, hb, hqb, h2⟩
        · exact .inl (.cons ⟨ha, hp⟩ hr)
        · exact .inr ⟨_ :: l₁, b, l₂, s₁, s₂, rfl, .cons ⟨ha, hp⟩ h1, hb, hqb, h2⟩
      · exact .inr ⟨[], _, _, _, _, rfl, .nil, ha, hq, h⟩

end Lts
