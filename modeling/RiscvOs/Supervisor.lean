import RiscvOs.Shell

/-!
# The supervisor

`init.c`: it starts every server of `init.h`, and whenever `wait` returns it runs the loop that starts them
again. A server is known by the path of its program.
-/

namespace RiscvOs.Supervisor

/-- `servers`; `none` stands for NULL. -/
def servers : List (Option (List UInt8)) :=
  [some (ascii "window_server.elf"), some (ascii "test_shell.elf"), none, none]

/-- A process that init has started. -/
structure Instance where
  pid : Nat
  path : List UInt8
  deriving Repr, DecidableEq

/-- The children of init: those that run, those that have exited and are not reaped yet, and
`restart_count`. -/
structure World where
  live : List Instance
  zombies : List Instance
  restartCount : Nat

/-- `fork` and, in the child, `exec`, both successful: the child gets a pid that nobody has. -/
inductive Started (path : List UInt8) : World → World → Prop
  | mk {w : World} {pid : Nat} : (∀ p ∈ w.live ++ w.zombies, p.pid ≠ pid) →
      Started path w { w with live := ⟨pid, path⟩ :: w.live }

/-- The loop over `servers`. -/
inductive StartAll : List (Option (List UInt8)) → World → World → Prop
  | nil {w : World} : StartAll [] w w
  | skip {l : List (Option (List UInt8))} {w w' : World} : StartAll l w w' → StartAll (none :: l) w w'
  | start {path : List UInt8} {l : List (Option (List UInt8))} {w w' w'' : World} :
      Started path w w' → StartAll l w' w'' → StartAll (some path :: l) w w''

inductive Event
  /-- a server exits -/
  | exit (p : Instance)
  /-- `wait` returns with `p`, and the loop of `main` runs once -/
  | round (p : Instance)
  deriving Repr, DecidableEq

/-- A server that exits while the loop runs is taken to exit before it or after it. -/
inductive Step : World → Event → World → Prop
  | exit {w : World} {p : Instance} : p ∈ w.live →
      Step w (.exit p) { w with live := w.live.erase p, zombies := p :: w.zombies }
  | round {w w' : World} {p : Instance} : p ∈ w.zombies →
      StartAll servers { w with zombies := w.zombies.erase p, restartCount := w.restartCount + 1 } w' →
      Step w (.round p) w'

/-- Init has started the servers for the first time. -/
def Start (w : World) : Prop := StartAll servers ⟨[], [], 0⟩ w

/-- The number of running instances of a server. -/
def World.running (w : World) (path : List UInt8) : Nat := w.live.countP fun p => p.path == path

end RiscvOs.Supervisor
