import RiscvOs.Theorems.Turns

/-!
# From one state of a process to the next

Every way that the state of a slot changes, with the call that is behind it, and what stays the same from the
`sys_fork` that fills a slot to the `sys_wait` that frees it.
-/

namespace RiscvOs

open Lts

variable {L : Layout} {fs : Initramfs} {s s' s₀ s₁ : Machine} {t : Trap} {l l₀ : List Trap} {c i p : Fin procsMax}

namespace Table

variable {t : Table} {e : Event}

theorem preempted_state (t : Table) (i : Fin procsMax) : (t.preempted.slots i).state = (t.slots i).state ∨
    i = t.current ∧ (t.slots i).state = .running ∧ (t.preempted.slots i).state = .runnable := by
  by_cases hc : i = t.current
  · subst hc
    unfold preempted changeState
    split
    · rename_i hrun
      exact .inr ⟨rfl, hrun, by rw [setState, slots_set_self]⟩
    · exact .inl rfl
  · exact .inl (congrArg Slot.state (slots_changeState_of_ne hc))

/-- `yield` takes the processor from the current process and gives it to the next one. -/
theorem yield_state (t : Table) (i : Fin procsMax) : (t.yield.slots i).state = (t.slots i).state ∨
    i = t.current ∧ (t.slots i).state = .running ∧ (t.yield.slots i).state = .runnable ∨
      i = t.yield.current ∧ (t.slots i).state = .runnable ∧ (t.yield.slots i).state = .running := by
  by_cases hs : t.Switches
  · have hyield : t.yield.slots i = (t.preempted.changeState t.preempted.next .runnable .running).slots i := by
      rw [yield, if_pos hs]
    by_cases hn : i = t.preempted.next
    · -- it was not the current one
      have hsame : t.preempted.slots i = t.slots i := slots_changeState_of_ne (hn ▸ hs)
      rw [hyield, changeState]
      split
      · rename_i hr
        rw [← hn, hsame] at hr
        exact .inr (.inr ⟨hn.trans t.current_yield.symm, hr, by rw [setState, hn, slots_set_self]⟩)
      · exact .inl (by rw [hsame])
    · rw [hyield, slots_changeState_of_ne hn]
      rcases t.preempted_state i with h | h
      · exact .inl h
      · exact .inr (.inl h)
  · rw [yield_of_not_switches hs]
    rcases t.preempted_state i with h | h
    · exact .inl h
    · exact .inr (.inl h)

/-- What a process is from its start on stays, until it is freed. -/
theorem Event.run_identity (he : e.Enabled t) (hl : (t.slots i).state ≠ .unused) (hr : e ≠ .reap i) :
    ((e.run t).slots i).pid = (t.slots i).pid ∧ ((e.run t).slots i).parent = (t.slots i).parent ∧
      ((e.run t).slots i).state ≠ .unused := by
  have hyield : ∀ u : Table, (u.slots i).state ≠ .unused → (u.slots i).pid = (t.slots i).pid →
      (u.slots i).parent = (t.slots i).parent → (u.yield.slots i).pid = (t.slots i).pid ∧
        (u.yield.slots i).parent = (t.slots i).parent ∧ (u.yield.slots i).state ≠ .unused := fun u hu hpid hpar => by
    have hres := u.yield_rescheduled i
    exact ⟨hres.pid.trans hpid, hres.parent.trans hpar, fun h => hu ((hres.state_iff (by simp) (by simp)).mp h)⟩
  have hset : ∀ (j : Fin procsMax) (p : Slot), (i = j → p.pid = (t.slots j).pid ∧ p.parent = (t.slots j).parent ∧
      p.state ≠ .unused) → ((t.set j p).slots i).pid = (t.slots i).pid ∧
        ((t.set j p).slots i).parent = (t.slots i).parent ∧ ((t.set j p).slots i).state ≠ .unused := fun j p hp => by
    by_cases hj : i = j
    · subst hj
      rw [slots_set_self]
      exact hp rfl
    · rw [slots_set_of_ne hj]
      exact ⟨rfl, rfl, hl⟩
  cases e with
  | stay => exact ⟨rfl, rfl, hl⟩
  | yield => exact hyield t hl rfl rfl
  | fork d =>
      refine hset d _ fun hd => absurd ?_ hl
      rw [hd]
      simpa using List.find?_some he
  | exec =>
      obtain ⟨hpid, hpar, hu⟩ := hset t.current { t.slots t.current with state := .running }
        fun _ => ⟨rfl, rfl, by simp⟩
      exact hyield _ hu hpid hpar
  | exit code => exact hset _ _ fun _ => ⟨rfl, rfl, by simp⟩
  | reap z => exact hset z _ fun hz => absurd (by rw [hz]) hr
  | send d bytes => exact hset d _ fun hd => ⟨rfl, rfl, hd ▸ hl⟩
  | recv => exact hset _ _ fun hc => ⟨rfl, rfl, hc ▸ hl⟩

end Table

/-- The ways of slot `i` through one trap, with the call behind each: from one state to another. -/
inductive Machine.Moves (s : Machine) (t : Trap) (s' : Machine) (i : Fin procsMax) : PState → PState → Prop
  | stays {a : PState} : Moves s t s' i a a
  | preempted (h : i = s.kernel.cur) : Moves s t s' i .running .runnable
  | chosen (h : i = s'.kernel.cur) : Moves s t s' i .runnable .running
  | forked (h : t.request = some .fork) (hi : s.kernel.freeSlot = some i) : Moves s t s' i .unused .runnable
  | exited {a : PState} {code : Nat} (h : t.request = some (.exit code)) (hi : i = s.kernel.cur)
      (ha : a ≠ .unused) : Moves s t s' i a .zombie
  | reaped {status : Nat} (h : t.request = some (.wait status)) (hi : s.kernel.findZombie = some i) :
      Moves s t s' i .zombie .unused
  /-- also after its exit -/
  | loaded {a b : PState} {filename argv : Nat} {argc : Int} (h : t.request = some (.exec filename argv argc))
      (hi : i = s.kernel.cur) (ha : a ≠ .unused) (hb : b = .runnable ∨ b = .running) : Moves s t s' i a b

namespace Machine

variable {e : Table.Event}

/-- The call behind an event. -/
theorem Effect.request (h : s.Effect L fs t e) :
    (∀ c, e = .fork c → t.request = some .fork) ∧ (∀ code, e = .exit code → t.request = some (.exit code)) ∧
      (∀ z, e = .reap z → ∃ status, t.request = some (.wait status)) ∧
        (e = .exec → ∃ filename argv argc, t.request = some (.exec filename argv argc)) := by
  cases h with
  | timer => simp
  | @ecall call ret _ hcause hcall he =>
      have hreq : t.request = some call := by rw [Trap.request, hcause, hcall]
      rw [hreq]
      cases he <;> simp

/-- With a free slot, `sys_fork` fills it. -/
theorem Effect.fork_of_request (h : s.Effect L fs t e) (hc : s.kernel.currentProc.isSome)
    (hreq : t.request = some .fork) (hslot : s.kernel.freeSlot = some c) : e = .fork c := by
  cases h with
  | timer hcause => simp [Trap.request, hcause] at hreq
  | @ecall call ret _ hcause hcall he =>
      rw [Trap.request, hcause] at hreq
      obtain rfl := Option.some.inj (hcall.symm.trans hreq)
      cases he with
      | quiet hq => exact hq.elim
      | forkNone hn =>
          rw [inKernel_table hc] at hn
          exact absurd (hn.symm.trans hslot) (by simp)
      | fork hf =>
          rw [inKernel_table hc] at hf
          rw [Option.some.inj (hf.symm.trans hslot)]

theorem Step.moves (hok : s.kernel.table.Ok) (h : s.Step L fs t s') (i : Fin procsMax) :
    s.Moves t s' i (s.kernel.procs i).state (s'.kernel.procs i).state := by
  obtain ⟨e, he, ht⟩ := trap_effect hok.started h.2
  obtain ⟨hfork, hexit, hreap, hexec⟩ := he.request
  have hen := he.enabled hok.started
  have hcur : s'.kernel.cur = (e.run s.kernel.table).current := congrArg Table.current ht
  have hstate : (s'.kernel.procs i).state = ((e.run s.kernel.table).slots i).state :=
    congrArg (fun u : Table => (u.slots i).state) ht
  have hset : ∀ (j : Fin procsMax) (p : Slot), (i = j → s.Moves t s' i (s.kernel.table.slots j).state p.state) →
      s.Moves t s' i (s.kernel.procs i).state ((s.kernel.table.set j p).slots i).state := fun j p hp => by
    by_cases hj : i = j
    · subst hj
      rw [Table.slots_set_self]
      exact hp rfl
    · rw [Table.slots_set_of_ne hj]
      exact .stays
  rw [hstate]
  cases e with
  | stay => exact .stays
  | yield =>
      show s.Moves t s' i (s.kernel.table.slots i).state (s.kernel.table.yield.slots i).state
      rcases s.kernel.table.yield_state i with h | ⟨h, h1, h2⟩ | ⟨h, h1, h2⟩
      · rw [h]
        exact .stays
      · rw [h1, h2]
        exact .preempted h
      · rw [h1, h2]
        exact .chosen (h.trans hcur.symm)
  | fork d =>
      refine hset d _ fun hd => ?_
      have hfree : (s.kernel.table.slots d).state = .unused := by simpa using List.find?_some hen
      rw [hfree]
      exact .forked (hfork d rfl) (hd ▸ hen)
  | exec =>
      obtain ⟨filename, argv, argc, hreq⟩ := hexec rfl
      by_cases hc : i = s.kernel.cur
      · subst hc
        exact .loaded hreq rfl hok.current Table.exec_wakes
      · have hsame : (s.kernel.table.setState s.kernel.table.current .running).slots i = s.kernel.table.slots i :=
          Table.slots_set_of_ne hc
        rcases (s.kernel.table.setState s.kernel.table.current .running).yield_state i with h | ⟨h, -, -⟩ | ⟨h, h1, h2⟩
        · rw [hsame] at h
          show s.Moves t s' i (s.kernel.table.slots i).state _
          rw [← h]
          exact .stays
        · exact absurd h hc
        · rw [hsame] at h1
          show s.Moves t s' i (s.kernel.table.slots i).state (s.kernel.table.exec.slots i).state
          rw [h1, Table.exec, h2]
          exact .chosen (h.trans hcur.symm)
  | exit code => exact hset _ _ fun hc => .exited (hexit code rfl) hc hok.current
  | reap z =>
      obtain ⟨status, hreq⟩ := hreap z rfl
      refine hset z _ fun hz => ?_
      have hzombie := List.find?_some hen
      simp only [Bool.and_eq_true, beq_iff_eq] at hzombie
      rw [hzombie.1]
      exact .reaped hreq (hz ▸ hen)
  | send d bytes => exact hset d _ fun _ => .stays
  | recv => exact hset _ _ fun _ => .stays

/-- The process in slot `c`, as the process in slot `p` has made it. -/
structure ChildOf (p c : Fin procsMax) (k : Kernel) : Prop where
  live : k.Live c
  pid : (k.procs c).pid = c + 1
  parent : (k.procs c).parent = some p

/-- A trap that does not free the process in slot `c`. -/
def Spares (L : Layout) (fs : Initramfs) (c : Fin procsMax) (s : Machine) (t : Trap) (s' : Machine) : Prop :=
  s.Step L fs t s' ∧ s'.kernel.Live c

theorem Step.childOf (hok : s.kernel.table.Ok) (hc : ChildOf p c s.kernel) (h : s.Step L fs t s')
    (hl : s'.kernel.Live c) : ChildOf p c s'.kernel := by
  obtain ⟨e, he, ht⟩ := trap_effect hok.started h.2
  have hr : e ≠ .reap c := by
    rintro rfl
    have hgone : (s'.kernel.table.slots c).state = .unused := by
      rw [ht]
      exact congrArg Slot.state Table.slots_set_self
    exact hl hgone
  obtain ⟨hpid, hpar, -⟩ := Table.Event.run_identity (he.enabled hok.started) hc.live hr
  rw [← ht] at hpid hpar
  exact ⟨hl, hpid.trans hc.pid, hpar.trans hc.parent⟩

/-- Only the process in the slot of the parent frees a child, and only after its exit. -/
theorem Step.freed (hok : s.kernel.table.Ok) (hc : ChildOf p c s.kernel) (h : s.Step L fs t s')
    (hl : ¬s'.kernel.Live c) : s.kernel.cur = p ∧ (s.kernel.procs c).state = .zombie ∧
      ∃ status, t.request = some (.wait status) := by
  have hgone : (s'.kernel.procs c).state = .unused := not_not.mp hl
  have hm := h.moves hok c
  have hlive := hc.live
  unfold Kernel.Live at hlive
  generalize ha : (s.kernel.procs c).state = a at hm hlive
  rw [hgone] at hm
  cases hm with
  | stays => exact absurd rfl hlive
  | @reaped status hreq hz =>
      have hzombie := List.find?_some hz
      simp only [Bool.and_eq_true, beq_iff_eq] at hzombie
      rw [hc.parent] at hzombie
      exact ⟨(Option.some.inj hzombie.2).symm, rfl, status, hreq⟩
  | loaded _ _ _ hb => simp at hb

end Machine

end RiscvOs
