import RiscvOs.Trap

/-!
# The life of a process

The process table as the scheduler, the parents and the senders of messages see it, and the events that
change it. Every trap is one such event; memory plays no part in it.
-/

namespace RiscvOs

/-- A slot of the process table without what concerns memory. -/
structure Slot where
  pid : Nat := 0
  state : PState := .unused
  parent : Option (Fin procsMax) := none
  exitCode : Nat := 0
  inbox : IpcMessage := {}

@[ext] structure Table where
  slots : Fin procsMax → Slot
  count : Int
  currentProc : Option (Fin procsMax)
  idle : Fin procsMax

namespace Table

variable {t t' : Table} {i j c z : Fin procsMax} {p : Slot} {a b : PState}

def current (t : Table) : Fin procsMax := t.currentProc.getD 0

def set (t : Table) (i : Fin procsMax) (p : Slot) : Table := { t with slots := Function.update t.slots i p }

def setState (t : Table) (i : Fin procsMax) (a : PState) : Table := t.set i { t.slots i with state := a }

def changeState (t : Table) (i : Fin procsMax) (a b : PState) : Table :=
  if (t.slots i).state = a then t.setState i b else t

/-- May `yield` choose slot `i`? -/
def Eligible (t : Table) (i : Fin procsMax) : Bool :=
  i != 0 && (t.slots i).pid != 0 && (t.slots i).state == .runnable && (t.count == 2 || i != t.current)

/-- The process that `yield` chooses. -/
def next (t : Table) : Fin procsMax := ((List.finRange procsMax).find? t.Eligible).getD t.idle

/-- The table in which `yield` looks for the next process. -/
def preempted (t : Table) : Table := t.changeState t.current .running .runnable

/-- Does `yield` leave the current process? -/
def Switches (t : Table) : Prop := t.preempted.next ≠ t.current

instance : Decidable t.Switches := inferInstanceAs (Decidable (_ ≠ _))

def yield (t : Table) : Table :=
  if t.Switches then
    { t.preempted.changeState t.preempted.next .runnable .running with
      currentProc := some t.preempted.next }
  else t.preempted

def freeSlot (t : Table) : Option (Fin procsMax) :=
  (List.finRange procsMax).find? fun i => (t.slots i).state == .unused

/-- The child that `sys_wait` finds. -/
def findZombie (t : Table) : Option (Fin procsMax) :=
  (List.finRange procsMax).find? fun i =>
    (t.slots i).state == .zombie && (t.slots i).parent == some t.current

/-- What a trap does to the table. -/
inductive Event
  | stay
  | yield
  | fork (child : Fin procsMax)
  | exec
  | exit (code : Nat)
  | reap (dead : Fin procsMax)
  | send (dest : Fin procsMax) (bytes : List UInt8)
  | recv

def Event.Enabled (t : Table) : Event → Prop
  | .fork c => t.freeSlot = some c
  | .reap i => t.findZombie = some i
  | .send d bytes => (t.slots d).inbox.pending = false ∧ bytes.length ≤ 256
  | .recv => (t.slots t.current).inbox.pending = true
  | .stay | .yield | .exec | .exit _ => True

/-- The process that `create_init_process` makes in slot `i`: the first one has no parent. -/
def create (t : Table) (i : Fin procsMax) : Table :=
  { t.set i
      { t.slots i with
        pid := 1 + i, state := .runnable, parent := t.currentProc.or (t.slots i).parent } with
    count := t.count + 1 }

/-- A child in slot `c`. -/
def fork (t : Table) (c : Fin procsMax) : Table :=
  { t.set c { pid := c + 1, state := .runnable, parent := some t.current } with count := t.count + 1 }

/-- The process in slot `i` is gone. -/
def reap (t : Table) (i : Fin procsMax) : Table :=
  { t.set i { t.slots i with pid := 0, state := .unused, parent := none } with count := t.count - 1 }

def exit (t : Table) (code : Nat) : Table :=
  t.set t.current { t.slots t.current with state := .zombie, exitCode := code }

/-- A new program is loaded, and `yield` follows. -/
def exec (t : Table) : Table := (t.setState t.current .running).yield

def setInbox (t : Table) (i : Fin procsMax) (msg : IpcMessage) : Table :=
  t.set i { t.slots i with inbox := msg }

def Event.run (t : Table) : Event → Table
  | .stay => t
  | .yield => t.yield
  | .fork c => t.fork c
  | .exec => t.exec
  | .exit code => t.exit code
  | .reap i => t.reap i
  | .send d bytes => t.setInbox d ((t.slots d).inbox.fill bytes (t.slots t.current).pid)
  | .recv => t.setInbox t.current { (t.slots t.current).inbox with pending := false }

/-! ## What an event changes -/

@[simp] theorem set_self (t : Table) (i : Fin procsMax) : t.set i (t.slots i) = t := by
  simp [set]

@[simp] theorem set_set (t : Table) (i : Fin procsMax) (p q : Slot) : (t.set i p).set i q = t.set i q := by
  simp [set]

@[simp] theorem slots_set_self : (t.set i p).slots i = p := by simp [set]

theorem slots_set_of_ne (h : c ≠ i) : (t.set i p).slots c = t.slots c := by simp [set, h]

@[simp] theorem currentProc_set : (t.set i p).currentProc = t.currentProc := rfl

@[simp] theorem current_set : (t.set i p).current = t.current := rfl

@[simp] theorem count_set : (t.set i p).count = t.count := rfl

@[simp] theorem idle_set : (t.set i p).idle = t.idle := rfl

@[simp] theorem current_changeState : (t.changeState i a b).current = t.current := by
  unfold changeState
  split <;> rfl

@[simp] theorem current_preempted : t.preempted.current = t.current := current_changeState

/-- The current process does not run any more when `yield` looks at it a second time. -/
theorem preempted_ne_running : (t.preempted.slots t.current).state ≠ .running := by
  unfold preempted changeState
  split
  · simp [setState]
  · assumption

theorem changeState_of_ne (h : (t.slots i).state ≠ a) : t.changeState i a b = t := if_neg h

@[simp] theorem preempted_preempted : t.preempted.preempted = t.preempted := by
  have h := changeState_of_ne (b := .runnable) (preempted_ne_running (t := t))
  rw [show t.preempted.preempted = t.preempted.changeState t.preempted.current .running .runnable from rfl,
    current_preempted]
  exact h

@[simp] theorem switches_preempted : t.preempted.Switches ↔ t.Switches := by
  simp only [Switches, preempted_preempted, current_preempted]

theorem yield_of_not_switches (h : ¬t.Switches) : t.yield = t.preempted := if_neg h

theorem current_yield (t : Table) : t.yield.current = t.preempted.next := by
  unfold yield
  split
  · rfl
  · rename_i h
    rw [current_preempted]
    exact (not_not.mp h).symm

@[simp] theorem count_changeState : (t.changeState i a b).count = t.count := by
  unfold changeState
  split <;> rfl

@[simp] theorem idle_changeState : (t.changeState i a b).idle = t.idle := by
  unfold changeState
  split <;> rfl

theorem slots_changeState_of_ne (h : j ≠ i) : (t.changeState i a b).slots j = t.slots j := by
  unfold changeState
  split
  · exact slots_set_of_ne h
  · rfl

/-- `yield` may leave a slot with another state, but only RUNNABLE for RUNNING and the other way round. -/
structure Rescheduled (p q : Slot) : Prop where
  rest : q = { p with state := q.state }
  state : q.state = p.state ∨
    (p.state = .runnable ∨ p.state = .running) ∧ (q.state = .runnable ∨ q.state = .running)

namespace Rescheduled

theorem refl (p : Slot) : Rescheduled p p := ⟨rfl, .inl rfl⟩

theorem trans {r : Slot} (h : Rescheduled p q) (h' : Rescheduled q r) : Rescheduled p r := by
  refine ⟨by rw [h'.rest, h.rest], ?_⟩
  rcases h'.state with he | ⟨hq, hr⟩
  · rw [he]
    exact h.state
  · rcases h.state with he | ⟨hp, _⟩
    · rw [he] at hq
      exact .inr ⟨hq, hr⟩
    · exact .inr ⟨hp, hr⟩

variable (h : Rescheduled p q)
include h

theorem pid : q.pid = p.pid := by rw [h.rest]
theorem parent : q.parent = p.parent := by rw [h.rest]
theorem exitCode : q.exitCode = p.exitCode := by rw [h.rest]
theorem inbox : q.inbox = p.inbox := by rw [h.rest]

/-- A state that the scheduler does not know stays. -/
theorem state_iff (hr : a ≠ .runnable) (hr' : a ≠ .running) : q.state = a ↔ p.state = a := by
  rcases h.state with he | ⟨hp, hq⟩
  · rw [he]
  · refine ⟨fun he => ?_, fun he => ?_⟩
    · rw [he] at hq
      exact absurd hq (by simp [hr, hr'])
    · rw [he] at hp
      exact absurd hp (by simp [hr, hr'])

end Rescheduled

theorem changeState_rescheduled (ha : a = .runnable ∨ a = .running) (hb : b = .runnable ∨ b = .running)
    (j : Fin procsMax) : Rescheduled (t.slots j) ((t.changeState i a b).slots j) := by
  by_cases hj : j = i
  · subst hj
    unfold changeState
    split
    · rename_i h
      rw [setState, slots_set_self]
      exact ⟨rfl, .inr ⟨h ▸ ha, hb⟩⟩
    · exact .refl _
  · rw [slots_changeState_of_ne hj]
    exact .refl _

theorem preempted_rescheduled (j : Fin procsMax) : Rescheduled (t.slots j) (t.preempted.slots j) :=
  changeState_rescheduled (by simp) (by simp) j

theorem yield_rescheduled (t : Table) (j : Fin procsMax) : Rescheduled (t.slots j) (t.yield.slots j) := by
  unfold yield
  split
  · exact (preempted_rescheduled j).trans (changeState_rescheduled (by simp) (by simp) j)
  · exact preempted_rescheduled j

theorem yield_count : t.yield.count = t.count := by
  unfold yield preempted
  split <;> simp

theorem yield_idle : t.yield.idle = t.idle := by
  unfold yield preempted
  split <;> simp

/-- What `yield` chooses may run, or is idle. -/
theorem next_runnable (t : Table) : t.next = t.idle ∨ (t.slots t.next).state = .runnable := by
  unfold next
  cases h : (List.finRange procsMax).find? t.Eligible with
  | none => exact .inl rfl
  | some i =>
      have hi := List.find?_some h
      simp only [Eligible, Bool.and_eq_true, beq_iff_eq] at hi
      exact .inr hi.1.2

/-! ## The invariant -/

/-- The slots in use. -/
def used (t : Table) : Finset (Fin procsMax) := Finset.univ.filter fun i => (t.slots i).state ≠ .unused

@[simp] theorem mem_used : i ∈ t.used ↔ (t.slots i).state ≠ .unused := by simp [used]

/-- The table of a system that runs: the counter is exact, a pid is the place of its slot, the current
process exists and no other one is RUNNING, nobody is his own parent, and idle is there. -/
structure Ok (t : Table) : Prop where
  count : t.count = t.used.card
  pid : ∀ i, (t.slots i).pid = if (t.slots i).state = .unused ∨ i = 0 then 0 else (i : Nat) + 1
  started : t.currentProc.isSome
  current : (t.slots t.current).state ≠ .unused
  running : ∀ i, (t.slots i).state = .running → i = t.current
  parent : ∀ i, (t.slots i).parent ≠ some i
  idle : t.idle = 0
  idleUsed : (t.slots 0).state ≠ .unused
  idleParent : (t.slots 0).parent = none

namespace Ok

variable (h : t.Ok)
include h

/-- A slot is changed that stays in use, or stays free. -/
theorem set (hu : p.state = .unused ↔ (t.slots i).state = .unused) (hpid : p.pid = (t.slots i).pid)
    (hpar : p.parent = (t.slots i).parent) (hrun : p.state = .running → i = t.current) :
    (t.set i p).Ok := by
  have hstate : ∀ j, ((t.set i p).slots j).state = .unused ↔ (t.slots j).state = .unused := by
    intro j
    by_cases hj : j = i
    · subst hj
      rw [slots_set_self]
      exact hu
    · rw [slots_set_of_ne hj]
  have hpid' : ∀ j, ((t.set i p).slots j).pid = (t.slots j).pid := by
    intro j
    by_cases hj : j = i
    · subst hj
      rw [slots_set_self]
      exact hpid
    · rw [slots_set_of_ne hj]
  have hpar' : ∀ j, ((t.set i p).slots j).parent = (t.slots j).parent := by
    intro j
    by_cases hj : j = i
    · subst hj
      rw [slots_set_self]
      exact hpar
    · rw [slots_set_of_ne hj]
  have hused : (t.set i p).used = t.used := by
    ext j
    simp only [mem_used, ne_eq, hstate]
  refine ⟨by rw [hused]; exact h.count, fun j => ?_, h.started, fun hc => h.current ((hstate _).mp hc),
    fun j hj => ?_, fun j => by rw [hpar']; exact h.parent j, h.idle,
    fun h0 => h.idleUsed ((hstate 0).mp h0), by rw [hpar']; exact h.idleParent⟩
  · rw [hpid', h.pid]
    simp only [hstate]
  · by_cases hji : j = i
    · subst hji
      rw [slots_set_self] at hj
      exact hrun hj
    · rw [slots_set_of_ne hji] at hj
      exact h.running j hj

theorem changeState (hb : b ≠ .unused) (ha : a ≠ .unused) (hrun : b = .running → i = t.current) :
    (t.changeState i a b).Ok := by
  unfold Table.changeState
  split
  · rename_i hs
    exact h.set (by simp [hs, ha, hb]) rfl rfl hrun
  · exact h

theorem preempted : t.preempted.Ok := h.changeState (by simp) (by simp) (by simp)

/-- After the first steps of `yield` no process is RUNNING. -/
theorem preempted_not_running (i : Fin procsMax) : (t.preempted.slots i).state ≠ .running := by
  intro hr
  have hi := h.preempted.running i hr
  rw [current_preempted] at hi
  subst hi
  exact preempted_ne_running hr

/-- Another process becomes the current one while none is RUNNING. -/
theorem switch (hno : ∀ i, (t.slots i).state ≠ .running) (hi : (t.slots i).state ≠ .unused) :
    ({ t with currentProc := some i } : Table).Ok :=
  ⟨h.count, h.pid, rfl, hi, fun j hj => absurd hj (hno j), h.parent, h.idle, h.idleUsed, h.idleParent⟩

theorem next_used : (t.slots t.next).state ≠ .unused := by
  rcases t.next_runnable with hn | hn
  · rw [hn, h.idle]
    exact h.idleUsed
  · rw [hn]
    simp

theorem yield : t.yield.Ok := by
  unfold Table.yield
  split
  · have hs := h.preempted.switch h.preempted_not_running h.preempted.next_used
    have hc := hs.changeState (i := t.preempted.next) (a := .runnable) (b := .running) (by simp) (by simp)
      fun _ => rfl
    have heq : ({ t.preempted with currentProc := some t.preempted.next } : Table).changeState
        t.preempted.next .runnable .running =
        { t.preempted.changeState t.preempted.next .runnable .running with
          currentProc := some t.preempted.next } := by
      unfold Table.changeState
      split <;> rfl
    rw [← heq]
    exact hc
  · exact h.preempted

theorem fork (hc : t.freeSlot = some c) : (t.fork c).Ok := by
  have hfree : (t.slots c).state = .unused := by simpa using List.find?_some hc
  have hc0 : c ≠ 0 := fun he => h.idleUsed (he ▸ hfree)
  have hcur : t.current ≠ c := fun he => h.current (he ▸ hfree)
  have hself : (t.fork c).slots c = { pid := c + 1, state := .runnable, parent := some t.current } :=
    slots_set_self
  have hother : ∀ j, j ≠ c → (t.fork c).slots j = t.slots j := fun j hj => slots_set_of_ne hj
  have hused : (t.fork c).used = insert c t.used := by
    ext j
    by_cases hj : j = c
    · subst hj
      simp [hself]
    · simp [hother j hj, hj]
  refine ⟨?_, fun j => ?_, h.started, ?_, fun j hj => ?_, fun j => ?_, h.idle, ?_, ?_⟩
  · rw [hused, Finset.card_insert_of_notMem (by simp [hfree])]
    show t.count + 1 = _
    rw [h.count]
    push_cast
    rfl
  · by_cases hj : j = c
    · subst hj
      simp [hself, hc0]
    · rw [hother j hj]
      exact h.pid j
  · show ((t.fork c).slots t.current).state ≠ .unused
    rw [hother _ hcur]
    exact h.current
  · by_cases hjc : j = c
    · subst hjc
      rw [hself] at hj
      cases hj
    · rw [hother j hjc] at hj
      exact h.running j hj
  · by_cases hj : j = c
    · subst hj
      rw [hself]
      simpa using hcur
    · rw [hother j hj]
      exact h.parent j
  · rw [hother 0 hc0.symm]
    exact h.idleUsed
  · rw [hother 0 hc0.symm]
    exact h.idleParent

theorem reap (hz : t.findZombie = some z) : (t.reap z).Ok := by
  have hzombie := List.find?_some hz
  simp only [Bool.and_eq_true, beq_iff_eq] at hzombie
  have hz0 : z ≠ 0 := by
    rintro rfl
    rw [h.idleParent] at hzombie
    cases hzombie.2
  have hcur : t.current ≠ z := by
    rintro rfl
    exact h.parent _ hzombie.2
  have hself : (t.reap z).slots z = { t.slots z with pid := 0, state := .unused, parent := none } :=
    slots_set_self
  have hother : ∀ j, j ≠ z → (t.reap z).slots j = t.slots j := fun j hj => slots_set_of_ne hj
  have hused : (t.reap z).used = t.used.erase z := by
    ext j
    by_cases hj : j = z
    · subst hj
      simp [hself]
    · simp [hother j hj, hj]
  have hmem : z ∈ t.used := by simp [hzombie.1]
  refine ⟨?_, fun j => ?_, h.started, ?_, fun j hj => ?_, fun j => ?_, h.idle, ?_, ?_⟩
  · have hpos := Finset.card_pos.mpr ⟨z, hmem⟩
    rw [hused, Finset.card_erase_of_mem hmem]
    show t.count - 1 = _
    rw [h.count]
    omega
  · by_cases hj : j = z
    · subst hj
      simp [hself]
    · rw [hother j hj]
      exact h.pid j
  · show ((t.reap z).slots t.current).state ≠ .unused
    rw [hother _ hcur]
    exact h.current
  · by_cases hjz : j = z
    · subst hjz
      rw [hself] at hj
      cases hj
    · rw [hother j hjz] at hj
      exact h.running j hj
  · by_cases hj : j = z
    · subst hj
      rw [hself]
      simp
    · rw [hother j hj]
      exact h.parent j
  · rw [hother 0 hz0.symm]
    exact h.idleUsed
  · rw [hother 0 hz0.symm]
    exact h.idleParent

/-- Every event keeps the invariant. -/
theorem run {e : Event} (he : e.Enabled t) : (e.run t).Ok := by
  cases e with
  | stay => exact h
  | yield => exact h.yield
  | fork c => exact h.fork he
  | exec =>
      exact (h.set (i := t.current) (p := { t.slots t.current with state := .running })
        (by simp [h.current]) rfl rfl fun _ => rfl).yield
  | exit code => exact h.set (by simp [h.current]) rfl rfl (by simp)
  | reap z => exact h.reap he
  | send d bytes => exact h.set Iff.rfl rfl rfl (h.running d)
  | recv => exact h.set Iff.rfl rfl rfl fun _ => rfl

/-- The pids of processes tell them apart. -/
theorem pid_inj (hi : (t.slots i).state ≠ .unused) (hj : (t.slots j).state ≠ .unused)
    (hp : (t.slots i).pid = (t.slots j).pid) : i = j := by
  rw [h.pid, h.pid] at hp
  simp only [hi, hj, false_or] at hp
  split at hp <;> split at hp <;> rename_i h1 h2
  · rw [h1, h2]
  · cases hp
  · cases hp
  · exact Fin.ext (Nat.succ.inj hp)

end Ok

/-- There is a current process, and there will be one. -/
theorem Event.started (e : Event) (h : t.currentProc.isSome) : (e.run t).currentProc.isSome := by
  have hy : ∀ t : Table, t.currentProc.isSome → t.yield.currentProc.isSome := by
    intro t ht
    unfold Table.yield
    split
    · rfl
    · unfold preempted changeState
      split <;> exact ht
  cases e with
  | yield => exact hy t h
  | exec => exact hy _ h
  | _ => exact h

/-- A zombie stays one, unless it is freed or loads a program. -/
theorem Event.zombie {e : Event} (he : e.Enabled t) (hz : (t.slots z).state = .zombie)
    (hx : e = .exec → t.current ≠ z) : ((e.run t).slots z).state = .zombie ∨ e = .reap z := by
  have hy : ∀ t : Table, (t.slots z).state = .zombie → (t.yield.slots z).state = .zombie := fun t ht =>
    ((t.yield_rescheduled z).state_iff (by simp) (by simp)).mpr ht
  cases e with
  | stay => exact .inl hz
  | yield => exact .inl (hy t hz)
  | fork c =>
      have hc : (t.slots c).state = .unused := by simpa using List.find?_some he
      have hne : z ≠ c := by
        rintro rfl
        rw [hz] at hc
        cases hc
      refine .inl ?_
      rw [show (Event.run t (.fork c)).slots z = t.slots z from slots_set_of_ne hne]
      exact hz
  | exec =>
      have hne : z ≠ t.current := Ne.symm (hx rfl)
      refine .inl (hy _ ?_)
      rw [show (t.setState t.current .running).slots z = t.slots z from slots_set_of_ne hne]
      exact hz
  | exit code =>
      refine .inl ?_
      by_cases hc : z = t.current
      · subst hc
        rw [show (Event.run t (.exit code)).slots t.current = _ from slots_set_self]
      · rw [show (Event.run t (.exit code)).slots z = t.slots z from slots_set_of_ne hc]
        exact hz
  | reap i =>
      by_cases hi : z = i
      · exact .inr (by rw [hi])
      · refine .inl ?_
        rw [show (Event.run t (.reap i)).slots z = t.slots z from slots_set_of_ne hi]
        exact hz
  | send d bytes =>
      refine .inl ?_
      by_cases hd : z = d
      · subst hd
        rw [show (Event.run t (.send z bytes)).slots z = _ from slots_set_self]
        exact hz
      · rw [show (Event.run t (.send d bytes)).slots z = t.slots z from slots_set_of_ne hd]
        exact hz
  | recv =>
      refine .inl ?_
      by_cases hc : z = t.current
      · subst hc
        rw [show (Event.run t .recv).slots t.current = _ from slots_set_self]
        exact hz
      · rw [show (Event.run t .recv).slots z = t.slots z from slots_set_of_ne hc]
        exact hz

/-- A zombie that loads a program may run again. -/
theorem exec_wakes : ((t.exec).slots t.current).state = .runnable ∨ ((t.exec).slots t.current).state = .running := by
  have hr := (t.setState t.current .running).yield_rescheduled t.current
  have hs : ((t.setState t.current .running).slots t.current).state = .running := by
    rw [setState, slots_set_self]
  rcases hr.state with h | ⟨_, h⟩
  · exact .inr (h.trans hs)
  · exact h

/-- The table after `kernel_main`: idle waits, and the shell runs. -/
def boot : Table where
  slots := fun i =>
    if i = 0 then { state := .runnable }
    else if i = 1 then { pid := 2, state := .running, parent := some 0 }
    else {}
  count := 2
  currentProc := some 1
  idle := 0

theorem boot_ok : boot.Ok := by
  refine ⟨by decide, by decide, rfl, by decide, by decide, by decide, rfl, by decide, rfl⟩

end Table

end RiscvOs
