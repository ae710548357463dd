import RiscvOs.Malloc
import RiscvOs.Lib.Sink

/-!
# Formatted output

`kvnprintf` of `common.c`, which the kernel and the user library share, and the lines that `virtio-emerg.c`
makes with it. A string of C is the list of its characters, up to a 0 if there is one.
-/

namespace RiscvOs

open ByteMem

/-- An argument in the place of an ellipsis: a pointer to a string, `none` for NULL, or a number. -/
inductive Arg
  | str (s : Option (List UInt8))
  | num (v : BitVec 64)

def chr (c : Char) : UInt8 := UInt8.ofNat c.toNat

/-- `digits`. -/
def digits : List UInt8 := ascii "0123456789abcdef"

/-- The loop of `itoa_unsigned`, the last digit first; `n` places of `buf` are left. -/
def itoaLoop (base : Nat) : Nat → Nat → Except Halt (List UInt8)
  | 0, _ => .error .undefined
  | n + 1, value =>
    if value / base = 0 then .ok [digits.getD (value % base) 0]
    else do
      let s ← itoaLoop base n (value / base)
      .ok (digits.getD (value % base) 0 :: s)

/-- `itoa_unsigned`, with its `char buf[33]`. -/
def itoaUnsigned (value : BitVec 32) (base : Nat) : Except Halt (List UInt8) :=
  if base < 2 ∨ 16 < base then .ok []
  else do
    let s ← itoaLoop base 33 value.toNat
    .ok s.reverse

/-- `itoa_signed`. -/
def itoaSigned (value : BitVec 32) (base : Nat) : Except Halt (List UInt8) :=
  if base < 2 ∨ 16 < base then .ok []
  else if value.toInt < 0 ∧ base = 10 then do
    let s ← itoaUnsigned (-value) base
    .ok (chr '-' :: s)
  else itoaUnsigned value base

/-- The string lies in `char tmp[33]`. -/
def inTmp (s : List UInt8) : Except Halt (List UInt8) := if s.length < 33 then .ok s else .error .undefined

/-- `while (*s && i < size - 1) buf[i++] = *s++`. -/
def putStr (buf lim : Nat) (o : Sink) : List UInt8 → Sink
  | [] => o
  | c :: s => if c ≠ 0 ∧ o.i < lim then putStr buf lim (o.put buf c) s else o

/-- `if (i < size - 1) buf[i++] = c`. -/
def putIf (buf lim : Nat) (o : Sink) (c : UInt8) : Sink := if o.i < lim then o.put buf c else o

/-- The conversion `spec` of `kvnprintf`, with the arguments behind the one it takes. -/
def convert (buf lim : Nat) (o : Sink) (spec : UInt8) (args : List Arg) : Except Halt (Sink × List Arg) :=
  if spec = chr 's' then
    match args with
    | .str s :: args => .ok (putStr buf lim o (s.getD []), args)
    | _ => .error .undefined
  else if spec = chr 'd' then
    match args with
    | .num v :: args => do
      let tmp ← inTmp (← itoaSigned (v.setWidth 32) 10)
      .ok (putStr buf lim o tmp, args)
    | _ => .error .undefined
  else if spec = chr 'u' then
    match args with
    | .num v :: args => do
      let tmp ← inTmp (← itoaUnsigned (v.setWidth 32) 10)
      .ok (putStr buf lim o tmp, args)
    | _ => .error .undefined
  else if spec = chr 'x' then
    match args with
    | .num v :: args => do
      let tmp ← inTmp (← itoaUnsigned (v.setWidth 32) 16)
      .ok (putStr buf lim o tmp, args)
    | _ => .error .undefined
  else if spec = chr 'p' then
    match args with
    | .num v :: args => do
      let o := putIf buf lim (o.put buf (chr '0')) (chr 'x')
      let tmp ← inTmp (← itoaUnsigned (v.setWidth 32) 16)
      .ok (putStr buf lim o tmp, args)
    | _ => .error .undefined
  else if spec = chr 'c' then
    match args with
    | .num v :: args => .ok (o.put buf (UInt8.ofNat v.toNat), args)
    | _ => .error .undefined
  else if spec = chr '%' then .ok (o.put buf (chr '%'), args)
  else .ok (putIf buf lim (o.put buf (chr '%')) spec, args)

/-- The loop of `kvnprintf`. -/
def kvnprintfLoop (buf lim : Nat) : List UInt8 → Sink → List Arg → Except Halt Sink
  | [], o, _ => .ok o
  | [c], o, _ => if c ≠ 0 ∧ o.i < lim then .ok (o.put buf c) else .ok o
  | c :: spec :: fmt, o, args =>
    if c = 0 ∨ ¬o.i < lim then .ok o
    else if c = chr '%' ∧ spec ≠ 0 then do
      let (o, args) ← convert buf lim o spec args
      kvnprintfLoop buf lim fmt o args
    else kvnprintfLoop buf lim (spec :: fmt) (o.put buf c) args

/-- `kvnprintf(buf, size, fmt, args)`; `ksnprintf` is the same with an argument list of its own. The index
is returned as an `int`. -/
def kvnprintf (buf size : Nat) (fmt : List UInt8) (args : List Arg) (m : Mem) : Except Halt (Int × Mem) := do
  let o ← kvnprintfLoop buf ((size + (2 ^ 64 - 1)) % 2 ^ 64) fmt ⟨m, 0⟩ args
  .ok ((BitVec.ofNat 32 o.i).toInt, Function.update o.mem (buf + o.i) 0)

/-! ## Lines of the emergency console -/

/-- The calls `pos += kvnprintf(buf + pos, sizeof(buf) - pos, fmt, args)` for `char buf[512]`: the sizes they
are given, and the buffer. -/
def emergParts (buf : Nat) : List (List UInt8 × List Arg) → Int → Mem → Except Halt (List Nat × Mem)
  | [], _, m => .ok ([], m)
  | (fmt, args) :: parts, pos, m => do
    let size := ((512 - pos) % 2 ^ 64).toNat
    let (n, m) ← kvnprintf (buf + pos).toNat size fmt args m
    let (sizes, m) ← emergParts buf parts (pos + n) m
    .ok (size :: sizes, m)

/-- `virtio_emerg_log`, up to the output of the line. -/
def virtioEmergLog (buf : Nat) (level : Option (List UInt8)) (fmt : List UInt8) (args : List Arg) (m : Mem) :
    Except Halt (List Nat × Mem) :=
  emergParts buf [(ascii "[%s] ", [.str level]), (fmt, args), (ascii "\n", [])] 0 m

/-- `virtio_emerg_log_va`. -/
def virtioEmergLogVa (buf : Nat) (level : Option (List UInt8)) (fmt : List UInt8) (args : List Arg) (m : Mem) :
    Except Halt (List Nat × Mem) :=
  emergParts buf [(ascii "[%s] ", [.str level]), (fmt, args), (ascii "\n", [])] 0 m

/-- `virtio_emerg_log_ext`. -/
def virtioEmergLogExt (buf : Nat) (source : Option (List UInt8)) (pid : BitVec 32) (level label : Option (List UInt8))
    (fmt : List UInt8) (args : List Arg) (m : Mem) : Except Halt (List Nat × Mem) :=
  emergParts buf
    [(ascii "[%s:PID=%d] [%s] %s: ",
      [.str source, .num (pid.signExtend 64), .str level, .str (some (label.getD []))]),
      (fmt, args), (ascii "\n", [])] 0 m

end RiscvOs
