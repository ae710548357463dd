import RiscvOs.Shell

/-!
# The window server

`main` of `window_server.c` and `ipc_recv` of the user library, with every access to `buffer`. What SYS_IPC_RECV
returns and copies is given.
-/

namespace RiscvOs.Window

/-- `BUF_SIZE`. -/
def bufSize : Nat := 256

/-- The room in `char buf[256]` of `ulog` behind the text in front of `%s`, with the 0. A character is read before
the room is looked at. -/
def logRoom (text : String) : Nat := 256 - (ascii text).length

/-- An access to `buffer[index]`. -/
structure Access where
  index : Nat
  /-- how many bytes the message and its terminator set so far -/
  filled : Nat
  /-- the access is one of `ipc_recv`, and not of `main` -/
  inRecv : Bool
  deriving Repr, DecidableEq

/-- The access lies inside `buffer`, and inside the part that is set. -/
def Access.Inside (a : Access) : Prop := a.index < bufSize ∧ a.index < a.filled

/-- What SYS_IPC_RECV returns in `a0`, and the bytes that it copies to `buffer`. -/
structure Reply where
  a0 : Nat
  bytes : List UInt8

/-- `ret`, an `int`. -/
def Reply.ret (r : Reply) : Int := (BitVec.ofNat 32 r.a0).toInt

/-- `buffer` after the copy. -/
def Reply.copyTo (r : Reply) (b : Nat → UInt8) : Nat → UInt8 := fun i => r.bytes.getD i (b i)

/-- The indices at which a string is read from `p` on, `n` at most. -/
def readStr (b : Nat → UInt8) : Nat → Nat → List Nat
  | 0, _ => []
  | n + 1, p => p :: if b p = 0 then [] else readStr b n (p + 1)

/-- `strncmp(buffer + p, t, strlen(t)) == 0`, with the indices that it reads. -/
def strncmp (b : Nat → UInt8) : Nat → List UInt8 → Bool × List Nat
  | _, [] => (true, [])
  | p, c :: t =>
    if b p ≠ c then (false, [p])
    else if b p = 0 then (true, [p])
    else
      let (eq, reads) := strncmp b (p + 1) t
      (eq, p :: reads)

/-- What `main` does with a message of `size` bytes. The texts that `printf` reads are followed for `rounds`
characters. -/
def gotMessage (rounds size : Nat) (b : Nat → UInt8) : List Access × (Nat → UInt8) :=
  let b := Function.update b size 0
  let got := readStr b (logRoom "[window_server] Got message: ") 0 ++ readStr b rounds 0
  let (eq, cmp) := strncmp b 0 (ascii "draw")
  let draw :=
    if eq then readStr b (logRoom "[window_server] Drawing: ") 5 ++ readStr b rounds 5 else []
  ((size :: (got ++ cmp ++ draw)).map (⟨·, size + 1, false⟩), b)

/-- The accesses of the system call and of `ipc_recv`. The log line is the one after the loop. -/
def received (r : Reply) (b : Nat → UInt8) : List Access :=
  let log := if r.ret < 0 then [] else readStr b (logRoom "[ipc_recv] received  msg : ") 0
  (List.range r.bytes.length ++ log).map (⟨·, r.bytes.length, true⟩)

/-- The accesses of the server, whose system calls give these replies. -/
def main (rounds : Nat) : List Reply → (Nat → UInt8) → List Access
  | [], _ => []
  | r :: replies, b =>
    let b := r.copyTo b
    -- `ipc_recv` calls again, or `main` has a look at the size
    if 0 < r.ret then
      let (accesses, b') := gotMessage rounds r.ret.toNat b
      received r b ++ accesses ++ main rounds replies b'
    else received r b ++ main rounds replies b

end RiscvOs.Window
