import RiscvOs.Theorems.Restart
import RiscvOs.Theorems.Schedule

/-!
# Turns over whole runs

Whatever the processes do between two context switches, the scheduler goes by the slots: the process that it
chooses is the first one that is ready, the one that it leaves excepted. Two ready processes keep the turns from all
the slots behind them; a process behind one other ready process has every second turn at least.
-/

namespace RiscvOs

open Lts

variable {L : Layout} {fs : Initramfs} {s s' s₀ s₁ s₂ s₃ : Machine} {t t' : Trap} {l l₀ : List Trap}
  {a b p q : Fin procsMax}

namespace Table

variable {t : Table} {e : Event} {i : Fin procsMax}

/-- The current process stays, or `yield` chooses in a table in which the others are as ready as before. -/
theorem Ok.run_current (h : t.Ok) (e : Event) : (e.run t).current = t.current ∨ ∃ u : Table, u.Ok ∧
    u.current = t.current ∧ (e.run t).current = u.preempted.next ∧ (∀ i, t.Ready i → u.Ready i) ∧
      ∀ i, i ≠ t.current → u.Ready i → t.Ready i := by
  cases e with
  | yield => exact .inr ⟨t, h, rfl, current_yield t, fun _ hi => hi, fun _ _ hi => hi⟩
  | exec =>
      have hok : (t.setState t.current .running).Ok := h.set (by simp [h.current]) rfl rfl fun _ => rfl
      refine .inr ⟨_, hok, rfl, current_yield _, fun i hi => ⟨hi.1, ?_⟩, fun i hne hi => ⟨hi.1, ?_⟩⟩
      · by_cases hc : i = t.current
        · subst hc
          rw [setState, slots_set_self]
          exact .inr rfl
        · rw [setState, slots_set_of_ne hc]
          exact hi.2
      · have hs := hi.2
        rwa [setState, slots_set_of_ne hne] at hs
  | _ => exact .inl rfl

/-- The first ready process is chosen, or the first one behind the one that is left. -/
theorem Ok.run_lowest (h : t.Ok) (hq : t.Ready q) (hne : q ≠ t.current) (hsw : (e.run t).current ≠ t.current) :
    t.Ready (e.run t).current ∧ ∀ j < (e.run t).current, t.Ready j → j = t.current := by
  obtain ⟨u, hu, hcur, hnext, hto, hback⟩ := (h.run_current e).resolve_left hsw
  obtain ⟨hready, -, hfirst⟩ := hu.next_spec (hto q hq) (.inr (by rwa [hcur]))
  rw [hnext] at hsw ⊢
  exact ⟨hback _ hsw hready, fun j hj hr => (hfirst j hj (hto j hr)).2.trans hcur⟩

/-- Two ready processes keep a slot behind them from its turn. -/
theorem Ok.run_not_current (h : t.Ok) (ha : t.Ready a) (hb : t.Ready b) (hab : a < b) (hbq : b < q)
    (hq : t.current ≠ q) : (e.run t).current ≠ q := by
  rcases h.run_current e with he | ⟨u, hu, -, hnext, hto, -⟩
  · rwa [he]
  · rw [hnext]
    exact hu.not_selected (hto a ha) (hto b hb) hab hbq

end Table

namespace Machine

/-- A trap in which both processes are ready. -/
def BothReady (L : Layout) (fs : Initramfs) (a b : Fin procsMax) (s : Machine) (t : Trap) (s' : Machine) : Prop :=
  s.Step L fs t s' ∧ s.kernel.table.Ready a ∧ s.kernel.table.Ready b

theorem Step.run_current (hok : s.kernel.table.Ok) (h : s.Step L fs t s') :
    ∃ e : Table.Event, s'.kernel.cur = (e.run s.kernel.table).current := by
  obtain ⟨e, -, ht⟩ := trap_effect hok.started h.2
  exact ⟨e, congrArg Table.current ht⟩

theorem Step.lowest (hok : s.kernel.table.Ok) (h : s.Step L fs t s') (hq : s.kernel.table.Ready q)
    (hne : q ≠ s.kernel.cur) (hsw : s'.kernel.cur ≠ s.kernel.cur) : s.kernel.table.Ready s'.kernel.cur ∧
      ∀ j < s'.kernel.cur, s.kernel.table.Ready j → j = s.kernel.cur := by
  obtain ⟨e, he⟩ := h.run_current hok
  rw [he] at hsw ⊢
  exact hok.run_lowest hq hne hsw

/-- A switch away from another process goes to `q`, or to a ready process in front of it. -/
theorem Step.to_front (hok : s.kernel.table.Ok) (h : s.Step L fs t s') (hq : s.kernel.table.Ready q)
    (hne : q ≠ s.kernel.cur) (hsw : s'.kernel.cur ≠ s.kernel.cur) :
    s'.kernel.cur = q ∨ s'.kernel.cur < q ∧ s.kernel.table.Ready s'.kernel.cur := by
  obtain ⟨hready, hfirst⟩ := h.lowest hok hq hne hsw
  rcases lt_trichotomy s'.kernel.cur q with hlt | heq | hgt
  · exact .inr ⟨hlt, hready⟩
  · exact .inl heq
  · exact absurd (hfirst q hgt hq) hne

end Machine

end RiscvOs
