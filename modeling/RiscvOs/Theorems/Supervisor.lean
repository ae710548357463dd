import RiscvOs.Theorems.Shell

/-!
# What the supervisor keeps running

The loop of init starts every server, whichever of them has exited. After a round there is one instance of
each server just when none was running before it.
-/

namespace RiscvOs.Supervisor

open Lts

variable {w w' w₀ : World} {e : Event} {path : List UInt8} {l : List Event}
  {ss : List (Option (List UInt8))}

theorem Started.running (h : Started path w w') (q : List UInt8) :
    w'.running q = w.running q + if path = q then 1 else 0 := by
  cases h
  simp [World.running, List.countP_cons]

/-- The loop starts each server as often as it is configured. -/
theorem StartAll.running (h : StartAll ss w w') (q : List UInt8) :
    w'.running q = w.running q + ss.count (some q) := by
  induction h with
  | nil => simp
  | skip _ ih => simpa using ih
  | start hs _ ih =>
      rw [ih, hs.running, List.count_cons]
      simp only [beq_iff_eq, Option.some.injEq]
      omega

/-- Every server is configured once. -/
theorem servers_count (h : some path ∈ servers) : servers.count (some path) = 1 := by
  simp only [servers, List.mem_cons, Option.some.injEq, reduceCtorEq, List.not_mem_nil, or_false] at h
  rcases h with rfl | rfl
  · decide
  · decide

theorem StartAll.zombies (h : StartAll ss w w') :
    w'.zombies = w.zombies ∧ w'.live.length = w.live.length + ss.countP Option.isSome := by
  induction h with
  | nil => exact ⟨rfl, rfl⟩
  | skip _ ih => simpa using ih
  | start hs _ ih =>
      cases hs
      refine ⟨ih.1, ?_⟩
      rw [ih.2, List.length_cons, List.countP_cons_of_pos rfl]
      omega

/-- After a round exactly one instance of each server runs. -/
def Restored (e : Event) (w' : World) : Prop :=
  ∀ p, e = .round p → ∀ path, some path ∈ servers → w'.running path = 1

/-- When `wait` returns, no server runs. -/
def AllDead (w : World) (e : Event) : Prop :=
  ∀ p, e = .round p → ∀ path, some path ∈ servers → w.running path = 0

theorem Step.restored_iff (h : Step w e w') : Restored e w' ↔ AllDead w e := by
  cases h with
  | exit => exact iff_of_true (fun _ he => by cases he) fun _ he => by cases he
  | round _ hs =>
      have hr := hs.running
      constructor
      · intro h p _ path hp
        have h1 := h _ rfl path hp
        rw [hr, servers_count hp] at h1
        exact Nat.succ_inj.mp h1
      · intro h p _ path hp
        have h0 : _ = 0 := h _ rfl path hp
        rw [hr, servers_count hp]
        exact congrArg (· + 1) h0

/-! ## Runs -/

def Event.isRound : Event → Bool
  | .exit _ => false
  | .round _ => true

theorem Step.total (h : Step w e w') :
    w'.live.length + w'.zombies.length = w.live.length + w.zombies.length + if e.isRound then 1 else 0 := by
  cases h with
  | exit hp =>
      have := List.length_pos_of_mem hp
      simp only [List.length_erase_of_mem hp, List.length_cons, Event.isRound, Bool.false_eq_true, if_false]
      omega
  | round hp hs =>
      have := List.length_pos_of_mem hp
      obtain ⟨hz, hl⟩ := hs.zombies
      rw [hz, hl]
      simp only [List.length_erase_of_mem hp, Event.isRound, if_true,
        show servers.countP Option.isSome = 2 by decide]
      omega

/-- Every round leaves one process more than there were before it. -/
theorem run_total (h : Run Step w l w') :
    w'.live.length + w'.zombies.length = w.live.length + w.zombies.length + l.countP Event.isRound := by
  induction h with
  | nil => rfl
  | cons hs _ ih =>
      rw [ih, hs.total, List.countP_cons]
      omega

/-- The runs in which every round ends with one instance of each server are the runs in which no server
runs when `wait` returns. -/
theorem supervisorRun_iff (h : Start w₀) : (∀ path, some path ∈ servers → w₀.running path = 1) ∧
    ∀ l w, Run (fun w e w' => Step w e w' ∧ Restored e w') w₀ l w ↔
      Run (fun w e w' => Step w e w' ∧ AllDead w e) w₀ l w := by
  refine ⟨fun path hp => ?_, fun l w => ⟨fun hr => ?_, fun hr => ?_⟩⟩
  · rw [h.running, servers_count hp]
    rfl
  · exact hr.mono fun w e w' hs => ⟨hs.1, hs.1.restored_iff.mp hs.2⟩
  · exact hr.mono fun w e w' hs => ⟨hs.1, hs.1.restored_iff.mpr hs.2⟩

/-- The servers of init after its first loop. -/
def bothRunning : World := ⟨[⟨5, ascii "test_shell.elf"⟩, ⟨4, ascii "window_server.elf"⟩], [], 0⟩

theorem start_bothRunning : Start bothRunning := by
  refine .start (@Started.mk _ _ 4 ?_) (.start (@Started.mk _ _ 5 ?_) (.skip (.skip .nil)))
  · simp
  · simp

/-- Both servers exit before the first round. -/
theorem supervisorRun_iff_exits : ∃ l w, Run (fun w e w' => Step w e w' ∧ Restored e w') bothRunning l w ∧
    (Event.round ⟨4, ascii "window_server.elf"⟩) ∈ l := by
  refine ⟨_, _, ((supervisorRun_iff start_bothRunning).2 _ _).mpr (.cons ⟨.exit (p := ⟨5, ascii "test_shell.elf"⟩)
    (by decide), fun _ he => by cases he⟩ (.cons ⟨.exit (p := ⟨4, ascii "window_server.elf"⟩) (by decide),
      fun _ he => by cases he⟩ (.single ⟨.round (p := ⟨4, ascii "window_server.elf"⟩) (by decide)
        (.start (@Started.mk _ _ 6 ?_) (.start (@Started.mk _ _ 7 ?_) (.skip (.skip .nil)))), ?_⟩))), by simp⟩
  · decide
  · decide
  · exact fun p he path hp => rfl

/-- The window server exits, and the test shell is started a second time. -/
theorem supervisorRun_twice : ∃ w w', Start bothRunning ∧
    Step bothRunning (.exit ⟨4, ascii "window_server.elf"⟩) w ∧ w.running (ascii "test_shell.elf") = 1 ∧
      Step w (.round ⟨4, ascii "window_server.elf"⟩) w' ∧ w'.running (ascii "test_shell.elf") = 2 := by
  refine ⟨_, _, start_bothRunning, .exit (by decide), by decide, .round (by decide)
    (.start (@Started.mk _ _ 6 ?_) (.start (@Started.mk _ _ 7 ?_) (.skip (.skip .nil)))), by decide⟩
  · decide
  · decide

end RiscvOs.Supervisor
