import RiscvOs.Lib.CString
import RiscvOs.Heap

/-!
# The shell

`shell.c` with `strtok` of the user library. A round of the shell reads a line from the keyboard, takes it
apart and carries it out; `line` is the address of the buffer of the line.
-/

namespace RiscvOs

open ByteMem CString

/-- The characters of a literal. -/
def ascii (s : String) : List UInt8 := s.toList.map fun c => UInt8.ofNat c.toNat

namespace Shell

/-- `MAXLINE`. -/
def maxLine : Nat := 128

/-- `MAX_ARGS`. -/
def maxArgs : Nat := 8

/-- Memory of the shell, and the variable `saved` of `strtok`. -/
structure State where
  mem : Mem
  saved : Nat

/-- `strtok`, with `n` rounds of each loop at most; 0 stands for NULL. -/
def strtok (n : Nat) (s : State) (str : Nat) (delim : List UInt8) : Nat × State :=
  let saved := if str ≠ 0 then str else s.saved
  if saved = 0 then (0, { s with saved := saved })
  else
    let token := scan s.mem (fun c => c != 0 && delim.contains c) n saved
    if s.mem token = 0 then (0, { s with saved := token })
    else
      let saved := scan s.mem (fun c => c != 0 && !delim.contains c) n token
      if s.mem saved ≠ 0 then (token, ⟨Function.update s.mem saved 0, saved + 1⟩)
      else (token, { s with saved := 0 })

/-- One key. A backspace at the start of the line is a character like others. -/
def readKey (line : Nat) (m : Mem) (pos : Nat) (c : UInt8) : Mem × Nat :=
  if (c = 0x7F ∨ c = 8) ∧ pos > 0 then (m, pos - 1)
  else if pos < maxLine - 1 then (Function.update m (line + pos) c, pos + 1)
  else (m, pos)

/-- The keys up to ENTER. -/
def readLine (line : Nat) : Mem → Nat → List UInt8 → Option (Mem × List UInt8)
  | _, _, [] => none
  | m, pos, c :: keys =>
    if c = 13 ∨ c = 10 then some (Function.update m (line + pos) 0, keys)
    else
      let (m, pos) := readKey line m pos c
      readLine line m pos keys

/-- The loop that fills `argv` from the tokens, `n` at most. -/
def collect (s : State) (token : Nat) : Nat → List Nat × State
  | 0 => ([], s)
  | n + 1 =>
    if token = 0 then ([], s)
    else
      let (next, s) := strtok maxLine s 0 (ascii " ")
      let (argv, s) := collect s next n
      (token :: argv, s)

/-- `strcpy`, with `n` rounds of its loop at most. -/
def strcpy (m : Mem) (dst src : Nat) : Nat → Mem
  | 0 => m
  | n + 1 => if m src = 0 then Function.update m dst 0 else strcpy (Function.update m dst (m src)) (dst + 1) (src + 1) n

/-- `strcat` of a literal. -/
def strcat (n : Nat) (m : Mem) (dest : Nat) (src : List UInt8) : Mem :=
  write m (scan m (fun c => c != 0) n dest) (src.length + 1) fun i => src.getD i 0

/-- The name of the file is put into the buffer `filename`. -/
def putFilename (m : Mem) (filename cmd : Nat) : Mem :=
  strcat (maxLine + 8) (strcpy m filename cmd (maxLine + 8)) filename (ascii ".elf")

/-- How a round ends. -/
inductive Outcome
  /-- no key for ENTER yet -/
  | waiting
  | empty
  | clear
  | help
  | notAllowed
  | notFound
  | forkFailed
  /-- the child calls `exec(filename, argv, argc)` -/
  | exec (filename : List UInt8) (argv : List Nat)
  deriving Repr, DecidableEq

/-- What the shell does not start. -/
def notAllowed : List (List UInt8) :=
  [ascii "shell", ascii "idle", ascii "init", ascii "test_shell", ascii "window_server", ascii "testa",
    ascii "testb"]

/-- The line, once it is read. `canFork` says whether `fork` makes a child. -/
def command (fs : Initramfs) (line : Nat) (s : State) (canFork : Bool) : Outcome × State :=
  if s.mem line = 0 then (.empty, s)
  else
    let (token, s) := strtok maxLine s line (ascii " ")
    let (argv, s) := collect s token maxArgs
    match argv with
    | [] => (.empty, s)
    | cmd :: _ =>
      if eqAt s.mem line (ascii "clear") then (.clear, s)
      else if eqAt s.mem line (ascii "help") then (.help, s)
      else if notAllowed.any (eqAt s.mem line) then (.notAllowed, s)
      else
        let filename := strOf s.mem maxLine cmd ++ ascii ".elf"
        if (fs.find filename).isNone then (.notFound, s)
        else if canFork then (.exec filename argv, s)
        else (.forkFailed, s)

/-- A round of the loop of `main`, with the keys that are left. -/
def round (fs : Initramfs) (line : Nat) (s : State) (keys : List UInt8) (canFork : Bool) :
    Outcome × State × List UInt8 :=
  match readLine line s.mem 0 keys with
  | none => (.waiting, s, [])
  | some (m, rest) =>
    let (outcome, s) := command fs line { s with mem := m } canFork
    (outcome, s, rest)

end Shell

end RiscvOs
