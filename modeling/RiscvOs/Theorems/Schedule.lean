import RiscvOs.Theorems.Formatters

/-!
# The scheduler

`yield` takes the first RUNNABLE process behind idle that is not the current one. Two processes take turns; where
there are three, the others wait for ever. When `yield` finds no other process it leaves the current one RUNNABLE.
-/

namespace RiscvOs

open Lts

namespace Table

variable {t t' : Table} {i j p q a b : Fin procsMax} {n k : Nat}

/-! ## What is selected -/

/-- A process other than idle that may run, or runs. -/
def Ready (t : Table) (i : Fin procsMax) : Prop :=
  i ≠ t.idle ∧ ((t.slots i).state = .runnable ∨ (t.slots i).state = .running)

instance (t : Table) : DecidablePred t.Ready := fun _ => inferInstanceAs (Decidable (_ ∧ _))

def ready (t : Table) : Finset (Fin procsMax) := Finset.univ.filter t.Ready

/-- The process that `yield` selects after `k` calls of `yield`. -/
def selected (t : Table) (k : Nat) : Fin procsMax := (Table.yield^[k] t).preempted.next

/-- Of the processes that `n` calls of `yield` select, none but idle comes twice before every other one that stays
ready has come. -/
def Fair (t : Table) (n : Nat) : Prop :=
  ∀ k l p q, k < l → l < n → t.selected k = p → t.selected l = p → p ≠ t.idle → q ≠ p →
    (∀ j ≤ n, (Table.yield^[j] t).Ready q) → ∃ j ≤ l, t.selected j = q

@[simp] theorem mem_ready : i ∈ t.ready ↔ t.Ready i := by simp [ready]

theorem find_first {r : Fin n → Bool} {x : Fin n} (h : (List.finRange n).find? r = some x) :
    r x = true ∧ ∀ y < x, r y = false := by
  obtain ⟨hx, l, l', hl, hall⟩ := List.find?_eq_some_iff_append.mp h
  have hsorted := List.pairwise_lt_finRange n
  rw [hl] at hsorted
  refine ⟨hx, fun y hy => ?_⟩
  have hmem := List.mem_finRange y
  rw [hl] at hmem
  rcases List.mem_append.mp hmem with hy' | hy'
  · simpa using hall y hy'
  · rcases List.mem_cons.mp hy' with rfl | hy'
    · exact absurd hy (lt_irrefl _)
    · exact absurd (List.rel_of_pairwise_cons (List.pairwise_append.mp hsorted).2.1 hy') (lt_asymm hy)

theorem yield_ready (t : Table) (i : Fin procsMax) : t.yield.Ready i ↔ t.Ready i := by
  unfold Ready
  rw [yield_idle]
  refine and_congr_right fun _ => ?_
  rcases (t.yield_rescheduled i).state with he | ⟨hp, hq⟩
  · rw [he]
  · exact iff_of_true hq hp

namespace Ok

variable (h : t.Ok)
include h

theorem yields (k : Nat) : (Table.yield^[k] t).Ok := by
  induction k with
  | zero => exact h
  | succ k ih =>
      rw [Function.iterate_succ_apply']
      exact ih.yield

theorem eligible_iff : t.preempted.Eligible i = true ↔ t.Ready i ∧ (t.count = 2 ∨ i ≠ t.current) := by
  have hstate : (t.preempted.slots i).state = .runnable ↔
      (t.slots i).state = .runnable ∨ (t.slots i).state = .running := by
    have hno := h.preempted_not_running i
    rcases (preempted_rescheduled (t := t) i).state with he | ⟨hp, hq⟩
    · rw [he] at hno ⊢
      exact (or_iff_left hno).symm
    · exact iff_of_true (hq.resolve_right hno) hp
  have hpid : (t.preempted.slots i).pid = (t.slots i).pid := (preempted_rescheduled i).pid
  have hcount : t.preempted.count = t.count := count_changeState
  unfold Eligible Ready
  simp only [Bool.and_eq_true, Bool.or_eq_true, bne_iff_ne, beq_iff_eq, hstate, hpid, hcount, current_preempted,
    h.idle, h.pid i]
  constructor
  · rintro ⟨⟨⟨h0, -⟩, hs⟩, hc⟩
    exact ⟨⟨h0, hs⟩, hc⟩
  · rintro ⟨⟨h0, hs⟩, hc⟩
    refine ⟨⟨⟨h0, ?_⟩, hs⟩, hc⟩
    have hu : ¬((t.slots i).state = .unused ∨ i = 0) := by
      rintro (hu | hz)
      · rcases hs with hs | hs <;> rw [hu] at hs <;> cases hs
      · exact h0 hz
    rw [if_neg hu]
    exact Nat.succ_ne_zero _

/-- The first process that may be chosen is chosen. -/
theorem next_spec (hi : t.Ready i) (hc : t.count = 2 ∨ i ≠ t.current) :
    t.Ready t.preempted.next ∧ (t.count = 2 ∨ t.preempted.next ≠ t.current) ∧
      ∀ j < t.preempted.next, t.Ready j → t.count ≠ 2 ∧ j = t.current := by
  have helig := h.eligible_iff.mpr ⟨hi, hc⟩
  unfold next
  cases hf : (List.finRange procsMax).find? t.preempted.Eligible with
  | none => exact absurd helig (List.find?_eq_none.mp hf i (List.mem_finRange i))
  | some x =>
      obtain ⟨hx, hfirst⟩ := find_first hf
      obtain ⟨hready, hcur⟩ := h.eligible_iff.mp hx
      refine ⟨hready, hcur, fun j hj hrj => ?_⟩
      have hne : ¬(t.Ready j ∧ (t.count = 2 ∨ j ≠ t.current)) := fun he => by
        rw [← h.eligible_iff, hfirst j hj] at he
        cases he
      rw [not_and, not_or, not_not] at hne
      exact hne hrj

/-- Of two ready processes one is not the current one. -/
theorem ready_of_two (ha : t.Ready a) (hb : t.Ready b) (hab : a ≠ b) : t.Ready t.preempted.next := by
  by_cases hc : a = t.current
  · exact (h.next_spec hb (.inr (hc ▸ hab.symm))).1
  · exact (h.next_spec ha (.inr hc)).1

/-- What is selected is ready, or idle. -/
theorem ready_of_selected (hp : t.preempted.next ≠ t.idle) : t.Ready t.preempted.next := by
  have hidle : t.preempted.idle = t.idle := idle_changeState
  unfold next at *
  cases hf : (List.finRange procsMax).find? t.preempted.Eligible with
  | none =>
      rw [hf] at hp
      exact absurd hidle hp
  | some x => exact (h.eligible_iff.mp (List.find?_some hf)).1

/-- With two processes there is one besides idle. -/
theorem count_ne_two (hp : t.Ready p) (hq : t.Ready q) (hpq : p ≠ q) : t.count ≠ 2 := by
  intro hc
  have hcard : t.used.card = 2 := by
    have := h.count
    omega
  have hused : ∀ {i}, t.Ready i → i ∈ t.used := fun hi => mem_used.mpr fun hu => by
    rcases hi.2 with hs | hs <;> rw [hu] at hs <;> cases hs
  have hsub : {0, p, q} ⊆ t.used := by
    intro x hx
    simp only [Finset.mem_insert, Finset.mem_singleton] at hx
    rcases hx with rfl | rfl | rfl
    · exact mem_used.mpr h.idleUsed
    · exact hused hp
    · exact hused hq
  have hp0 := hp.1
  have hq0 := hq.1
  rw [h.idle] at hp0 hq0
  have hthree : ({0, p, q} : Finset (Fin procsMax)).card = 3 := Finset.card_eq_three.mpr
    ⟨0, p, q, hp0.symm, hq0.symm, hpq, rfl⟩
  have hle := Finset.card_le_card hsub
  omega

/-- A process with two ready ones in front of it is not selected. -/
theorem not_selected (ha : t.Ready a) (hb : t.Ready b) (hab : a < b) (hbq : b < q) : t.preempted.next ≠ q := by
  have hne := h.count_ne_two ha hb hab.ne
  rintro rfl
  by_cases hc : a = t.current
  · obtain ⟨-, -, hfirst⟩ := h.next_spec hb (.inr (hc ▸ hab.ne'))
    exact hab.ne (hc.trans (hfirst b hbq hb).2.symm)
  · obtain ⟨-, -, hfirst⟩ := h.next_spec ha (.inr hc)
    exact hc (hfirst a (hab.trans hbq) ha).2

/-- Of two ready processes the one that is not current is selected. -/
theorem other_selected (hcard : t.ready.card ≤ 2) (hp : t.Ready p) (hq : t.Ready q) (hpq : q ≠ p)
    (hc : t.current = p) : t.preempted.next = q := by
  obtain ⟨hready, hcur, -⟩ := h.next_spec hq (.inr (hc ▸ hpq))
  have hne : t.preempted.next ≠ p := hc ▸ hcur.resolve_left (h.count_ne_two hp hq hpq.symm)
  by_contra hother
  have hsub : {t.preempted.next, p, q} ⊆ t.ready := by
    intro x hx
    simp only [Finset.mem_insert, Finset.mem_singleton] at hx
    rcases hx with rfl | rfl | rfl
    · exact mem_ready.mpr hready
    · exact mem_ready.mpr hp
    · exact mem_ready.mpr hq
  have hthree : ({t.preempted.next, p, q} : Finset (Fin procsMax)).card = 3 := Finset.card_eq_three.mpr
    ⟨_, p, q, hne, hother, hpq.symm, rfl⟩
  have hle := Finset.card_le_card hsub
  omega

end Ok

theorem yields_ready (t : Table) (k : Nat) (i : Fin procsMax) : (Table.yield^[k] t).Ready i ↔ t.Ready i := by
  induction k with
  | zero => rfl
  | succ k ih => rw [Function.iterate_succ_apply', yield_ready, ih]

theorem yields_idle (t : Table) (k : Nat) : (Table.yield^[k] t).idle = t.idle := by
  induction k with
  | zero => rfl
  | succ k ih => rw [Function.iterate_succ_apply', yield_idle, ih]

theorem yields_ready_card (t : Table) (k : Nat) : (Table.yield^[k] t).ready = t.ready := by
  ext i
  rw [mem_ready, mem_ready, yields_ready]

/-! ## Turns -/

namespace Ok

variable (h : t.Ok)
include h

theorem never_selected (ha : t.Ready a) (hb : t.Ready b) (hab : a < b) (hbq : b < q) (k : Nat) : t.selected k ≠ q :=
  (h.yields k).not_selected ((yields_ready t k a).mpr ha) ((yields_ready t k b).mpr hb) hab hbq

theorem fair_of_two (hcard : t.ready.card ≤ 2) (n : Nat) : t.Fair n := by
  intro k l p q hkl hln hk hl hp hq hready
  have hrp : t.Ready p := by
    rw [← yields_idle t k, ← hk] at hp
    rw [← yields_ready t k, ← hk]
    exact (h.yields k).ready_of_selected hp
  have hcur : (Table.yield^[k + 1] t).current = p := by
    rw [Function.iterate_succ_apply', current_yield]
    exact hk
  refine ⟨k + 1, hkl, (h.yields (k + 1)).other_selected ?_ ?_ ?_ hq hcur⟩
  · rw [yields_ready_card]
    exact hcard
  · exact (yields_ready t (k + 1) p).mpr hrp
  · exact (yields_ready t (k + 1) q).mpr (hready 0 (Nat.zero_le n))

/-- Three processes do not all come. -/
theorem not_fair_of_three (hcard : 2 < t.ready.card) : ¬∀ n, t.Fair n := by
  intro hfair
  obtain ⟨q, hq, hmax⟩ := t.ready.exists_max_image id (Finset.card_pos.mp (by omega))
  have hrest : 1 < (t.ready.erase q).card := by
    rw [Finset.card_erase_of_mem hq]
    omega
  obtain ⟨a, ha, b, hb, hab⟩ := Finset.one_lt_card.mp hrest
  have hlt : ∀ x ∈ t.ready.erase q, x < q := fun x hx =>
    lt_of_le_of_ne (hmax x (Finset.mem_of_mem_erase hx)) (Finset.ne_of_mem_erase hx)
  have hready : ∀ x ∈ t.ready.erase q, t.Ready x := fun x hx => mem_ready.mp (Finset.mem_of_mem_erase hx)
  have hnever : ∀ k, t.selected k ≠ q := fun k => by
    rcases lt_or_gt_of_ne hab with hlt' | hlt'
    · exact h.never_selected (hready a ha) (hready b hb) hlt' (hlt b hb) k
    · exact h.never_selected (hready b hb) (hready a ha) hlt' (hlt a ha) k
  -- among nine calls one process comes twice
  obtain ⟨x, y, hxy, he⟩ :=
    Fintype.exists_ne_map_eq_of_card_lt (fun k : Fin (procsMax + 1) => t.selected k) (by simp)
  have hidle : ∀ k, t.selected k ≠ t.idle := fun k =>
    ((yields_ready t k _).mp ((h.yields k).ready_of_two ((yields_ready t k a).mpr (hready a ha))
      ((yields_ready t k b).mpr (hready b hb)) hab)).1
  have hstays : ∀ j ≤ procsMax + 1, (Table.yield^[j] t).Ready q := fun j _ =>
    (yields_ready t j q).mpr (mem_ready.mp hq)
  rcases lt_or_gt_of_ne hxy with hlt' | hlt'
  · obtain ⟨j, -, hj⟩ := hfair (procsMax + 1) x y _ q hlt' y.isLt rfl he.symm (hidle x) (hnever x).symm hstays
    exact hnever j hj
  · obtain ⟨j, -, hj⟩ := hfair (procsMax + 1) y x _ q hlt' x.isLt rfl he (hidle y) (hnever y).symm hstays
    exact hnever j hj

theorem fair_iff : (∀ n, t.Fair n) ↔ t.ready.card ≤ 2 := by
  refine ⟨fun hfair => ?_, h.fair_of_two⟩
  by_contra hcard
  exact h.not_fair_of_three (by omega) hfair

end Ok

end Table

variable {L : Layout} {fs : Initramfs} {s s' s₀ : Machine} {l : List Trap}

namespace Table

variable {t : Table} {e : Event} {i : Fin procsMax}

/-- The current process runs, or has exited. -/
def RunsOrExited (t : Table) : Prop := (t.slots t.current).state = .running ∨ (t.slots t.current).state = .zombie

/-- The event does not leave the current process RUNNABLE: a `yield` finds another process. -/
def Event.FindsOther (t : Table) : Event → Prop
  | .yield => t.Switches ∨ (t.slots t.current).state = .zombie
  | .exec => (t.setState t.current .running).Switches
  | _ => True

/-- No process waits in the sense of PROC_WAITING. -/
def NoWaiting (t : Table) : Prop := ∀ i, (t.slots i).state ≠ .waiting

/-- The current process after a `yield`. -/
theorem current_state_yield (h : t.Ok) : (t.yield.slots t.yield.current).state = .running ↔
    t.preempted.next ≠ t.current ∧ (t.slots t.preempted.next).state = .runnable := by
  rw [current_yield]
  by_cases hs : t.Switches
  · have hslot : t.preempted.slots t.preempted.next = t.slots t.preempted.next := slots_changeState_of_ne hs
    have hno := h.preempted_not_running t.preempted.next
    have hy : (t.yield.slots t.preempted.next).state =
        ((t.preempted.changeState t.preempted.next .runnable .running).slots t.preempted.next).state := by
      rw [yield, if_pos hs]
    rw [hy, ← hslot, Table.changeState]
    split
    · rename_i hr
      rw [setState, slots_set_self]
      exact iff_of_true rfl ⟨hs, hr⟩
    · rename_i hr
      exact iff_of_false hno fun h' => hr h'.2
  · rw [yield_of_not_switches hs, not_not.mp hs]
    exact iff_of_false preempted_ne_running fun h' => h'.1 rfl

theorem NoWaiting.yield (hw : t.NoWaiting) : t.yield.NoWaiting := fun i =>
  mt ((t.yield_rescheduled i).state_iff (by simp) (by simp)).mp (hw i)

theorem NoWaiting.set {p : Slot} (hw : t.NoWaiting) (hp : p.state ≠ .waiting) : (t.set i p).NoWaiting := by
  intro j
  by_cases hj : j = i
  · subst hj
    rwa [slots_set_self]
  · rw [slots_set_of_ne hj]
    exact hw j

theorem NoWaiting.run (hw : t.NoWaiting) : (e.run t).NoWaiting := by
  cases e with
  | stay => exact hw
  | yield => exact hw.yield
  | fork c => exact hw.set (by simp)
  | exec => exact (hw.set (by simp)).yield
  | exit code => exact hw.set (by simp)
  | reap z => exact hw.set (by simp)
  | send d bytes => exact hw.set (hw d)
  | recv => exact hw.set (hw t.current)

theorem runsOrExited_yield (h : t.Ok) (hw : t.NoWaiting) :
    t.yield.RunsOrExited ↔ t.Switches ∨ (t.slots t.current).state = .zombie := by
  unfold RunsOrExited
  rw [current_state_yield h, current_yield, (t.yield_rescheduled _).state_iff (by simp) (by simp)]
  by_cases hs : t.Switches
  · refine iff_of_true ?_ (.inl hs)
    rcases t.preempted.next_runnable with hn | hn
    · -- idle may have exited
      have hidle : t.preempted.next = 0 := by
        rw [hn]
        exact idle_changeState.trans h.idle
      have hused : (t.slots t.preempted.next).state ≠ .unused := by
        rw [hidle]
        exact h.idleUsed
      have hne : (t.slots t.preempted.next).state ≠ .running := fun he => hs (h.running _ he)
      have hnw := hw t.preempted.next
      cases hstate : (t.slots t.preempted.next).state with
      | runnable => exact .inl ⟨hs, rfl⟩
      | zombie => exact .inr rfl
      | unused => exact absurd hstate hused
      | running => exact absurd hstate hne
      | waiting => exact absurd hstate hnw
    · rw [show t.preempted.slots t.preempted.next = t.slots t.preempted.next from slots_changeState_of_ne hs] at hn
      exact .inl ⟨hs, hn⟩
  · have he : t.preempted.next = t.current := not_not.mp hs
    rw [he]
    exact ⟨fun h' => .inr (h'.resolve_left fun h'' => h''.1 rfl), fun h' => .inr (h'.resolve_left hs)⟩

/-- A slot that keeps its state. -/
theorem runsOrExited_set {p : Slot} (hp : p.state = (t.slots i).state) :
    (t.set i p).RunsOrExited ↔ t.RunsOrExited := by
  unfold RunsOrExited
  rw [current_set]
  by_cases hc : t.current = i
  · subst hc
    rw [slots_set_self, hp]
  · rw [slots_set_of_ne hc]

theorem runsOrExited_run (h : t.Ok) (hw : t.NoWaiting) (hr : t.RunsOrExited) (he : e.Enabled t) :
    (e.run t).RunsOrExited ↔ e.FindsOther t := by
  cases e with
  | stay => exact iff_of_true hr trivial
  | yield => exact runsOrExited_yield h hw
  | fork c =>
      have hc : (t.slots c).state = .unused := by simpa using List.find?_some he
      have hne : t.current ≠ c := fun hc' => h.current (hc' ▸ hc)
      refine iff_of_true ?_ trivial
      have hslot : (t.fork c).slots t.current = t.slots t.current := slots_set_of_ne hne
      show ((t.fork c).slots t.current).state = .running ∨ ((t.fork c).slots t.current).state = .zombie
      rw [hslot]
      exact hr
  | exec =>
      have hset : ((t.setState t.current .running).slots t.current).state = .running := by
        rw [setState, slots_set_self]
      have hok : (t.setState t.current .running).Ok := h.set (by simp [h.current]) rfl rfl fun _ => rfl
      refine (runsOrExited_yield hok (hw.set (by simp))).trans (or_iff_left fun hz => ?_)
      cases hset.symm.trans hz
  | exit code =>
      refine iff_of_true (.inr ?_) trivial
      show ((t.set t.current _).slots t.current).state = .zombie
      rw [slots_set_self]
  | reap z =>
      have hz := List.find?_some he
      simp only [Bool.and_eq_true, beq_iff_eq] at hz
      have hne : t.current ≠ z := fun hc => h.parent z (hc ▸ hz.2)
      refine iff_of_true ?_ trivial
      have hslot : (t.reap z).slots t.current = t.slots t.current := slots_set_of_ne hne
      show ((t.reap z).slots t.current).state = .running ∨ ((t.reap z).slots t.current).state = .zombie
      rw [hslot]
      exact hr
  | send d bytes =>
      have hset : (Event.run t (.send d bytes)).RunsOrExited ↔ t.RunsOrExited := runsOrExited_set rfl
      exact iff_of_true (hset.mpr hr) trivial
  | recv =>
      have hset : (Event.run t .recv).RunsOrExited ↔ t.RunsOrExited := runsOrExited_set rfl
      exact iff_of_true (hset.mpr hr) trivial

end Table

/-- The current process is RUNNING, and no other one. -/
def Kernel.CurrentRunning (k : Kernel) : Prop :=
  (k.procs k.cur).state = .running ∧ ∀ i, (k.procs i).state = .running → i = k.cur

/-- A trap, with the event that it is. -/
def Machine.EventStep (L : Layout) (fs : Initramfs) (s : Machine) (a : Trap × Table.Event) (s' : Machine) : Prop :=
  s.Step L fs a.1 s' ∧ s.Effect L fs a.1 a.2 ∧ s'.kernel.table = a.2.run s.kernel.table

/-- Every run is one of events. -/
theorem exists_events (h : Run (Machine.Step L fs) s l s') (hok : s.kernel.table.Ok) :
    ∃ l', l'.map Prod.fst = l ∧ Run (Machine.EventStep L fs) s l' s' := by
  induction h with
  | nil => exact ⟨[], rfl, .nil⟩
  | @cons s s₁ s' t l hs _ ih =>
      obtain ⟨ev, he, ht⟩ := Machine.trap_effect hok.started hs.2
      obtain ⟨l', rfl, hrun⟩ := ih (hs.ok hok)
      exact ⟨(t, ev) :: l', rfl, .cons ⟨hs, he, ht⟩ hrun⟩

theorem Kernel.currentRunning_yield (h : s.kernel.table.Ok) : (s.kernel.yield L).1.CurrentRunning ↔
    s.kernel.chosen ≠ s.kernel.cur ∧ (s.kernel.procs s.kernel.chosen).state = .runnable := by
  have hy : (s.kernel.yield L).1.table = s.kernel.table.yield := Kernel.yield_table
  have hchosen : s.kernel.table.preempted.next = s.kernel.chosen := by
    rw [Kernel.chosen, Kernel.pickNext_eq, Kernel.table_changeState]
    rfl
  have hstate := Table.current_state_yield h
  have hrun := h.yield.running
  rw [← hy] at hstate hrun
  rw [hchosen] at hstate
  exact ⟨fun hc => hstate.mp hc.1, fun hc => ⟨hstate.mpr hc, hrun⟩⟩

end RiscvOs
