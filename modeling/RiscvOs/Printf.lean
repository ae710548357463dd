import RiscvOs.Format

/-!
# Formatted output, character by character

`uart_printf` of the kernel and `printf` of the user library, with the functions that print a number. A format is
the list of its characters with the 0 behind them, and `fmt` points to the head of what is left of it. The text
that comes out is a list of characters too.
-/

namespace RiscvOs

/-- What goes wrong in a call. -/
inductive Fault
  /-- `*fmt` is read behind the 0 of the format -/
  | format
  /-- `va_arg` finds no argument of its type -/
  | argument
  /-- the bound on the rounds of the model is too small -/
  | rounds
  deriving Repr, DecidableEq

/-! ## Numbers -/

/-- The loop of `putpad`, with `n` places of `buf` left: the characters from `buf[i + 1]` on. -/
def putpadLoop (base : Nat) : Nat → Nat → List UInt8
  | 0, _ => []
  | n + 1, val =>
    if val = 0 then []
    else
      let digit := val % base
      putpadLoop base n (val / base) ++ [UInt8.ofNat (if digit < 10 then 48 + digit else 97 + digit - 10)]

/-- `putpad`: the sign, the padding, and the characters of `buf`. The negation of the least number wraps. -/
def putpad (val : BitVec 64) (base : Nat) (width : Int) (zeroPad signedVal : Bool) : List UInt8 :=
  let negative := signedVal && decide (val.toInt < 0)
  let val := if negative then -val else val
  let buf := if val = 0 then [chr '0'] else putpadLoop base 31 val.toNat
  let i : Int := 30 - buf.length
  let len := 31 - i
  (if negative then [chr '-'] else []) ++
    (List.replicate (width - len).toNat (if zeroPad then chr '0' else chr ' ') ++ buf)

/-- `uart_putpad`, which is the same for the console of the kernel. -/
def uartPutpad (val : BitVec 64) (base : Nat) (width : Int) (zeroPad signedVal : Bool) : List UInt8 :=
  putpad val base width zeroPad signedVal

/-- The loop of `puthex`. -/
def puthexLoop : Nat → BitVec 64 → List UInt8
  | 0, _ => []
  | n + 1, value => if value = 0 then [] else puthexLoop n (value >>> 4) ++ [digits.getD (value &&& 0xf).toNat 0]

/-- `puthex`. -/
def puthex (value : BitVec 64) (width : Int) : List UInt8 :=
  let buf := if value = 0 then [chr '0'] else puthexLoop 16 value
  let i : Int := 15 - buf.length
  let len := 16 - i - 1
  List.replicate (width - len).toNat (chr '0') ++ buf

/-- `uart_puthex`. -/
def uartPuthex (value : BitVec 64) (width : Int) : List UInt8 := puthex value width

/-! ## The format -/

/-- `*fmt`. -/
def fmtChar : List UInt8 → Except Fault UInt8
  | [] => .error .format
  | c :: _ => .ok c

/-- The flag: `zero_pad`, and where `fmt` points behind it. -/
def parseFlags (fmt : List UInt8) : Except Fault (Bool × List UInt8) := do
  let c ← fmtChar fmt
  if c = chr '0' then .ok (true, fmt.tail) else .ok (false, fmt)

/-- `*fmt >= '0' && *fmt <= '9'`. -/
def isDigit (c : UInt8) : Bool := decide (chr '0' ≤ c) && decide (c ≤ chr '9')

/-- The field width, an `int` that wraps. -/
def parseWidth : BitVec 32 → List UInt8 → Except Fault (BitVec 32 × List UInt8)
  | _, [] => .error .format
  | width, c :: fmt =>
    if isDigit c then parseWidth (width * 10 + BitVec.ofNat 32 (c.toNat - 48)) fmt else .ok (width, c :: fmt)

/-- The length modifier: 0 for none, 1 for `l` and 2 for `ll`. -/
def parseLength (fmt : List UInt8) : Except Fault (Nat × List UInt8) := do
  let c ← fmtChar fmt
  if c = chr 'l' then
    let fmt := fmt.tail
    let c ← fmtChar fmt
    if c = chr 'l' then .ok (2, fmt.tail) else .ok (1, fmt)
  else .ok (0, fmt)

/-- The functions that a conversion prints with. -/
structure Writer where
  putpad : BitVec 64 → Nat → Int → Bool → Bool → List UInt8
  puthex : BitVec 64 → Int → List UInt8

/-- `switch (*fmt)`: the text of the conversion, with the arguments behind the one it takes. -/
def putConversion (out : Writer) (zeroPad : Bool) (width : Int) (length : Nat) (spec : UInt8) (args : List Arg) :
    Except Fault (List UInt8 × List Arg) :=
  if spec = chr 'd' then
    match args with
    | .num v :: args =>
      .ok (out.putpad (if length = 2 ∨ length = 1 then v else (v.setWidth 32).signExtend 64) 10 width zeroPad true, args)
    | _ => .error .argument
  else if spec = chr 'u' then
    match args with
    | .num v :: args =>
      .ok (out.putpad (if length = 2 ∨ length = 1 then v else (v.setWidth 32).setWidth 64) 10 width zeroPad false, args)
    | _ => .error .argument
  else if spec = chr 'x' then
    match args with
    | .num v :: args => .ok (out.puthex (if length = 2 ∨ length = 1 then v else (v.setWidth 32).setWidth 64) width, args)
    | _ => .error .argument
  else if spec = chr 'c' then
    match args with
    | .num v :: args => .ok ([UInt8.ofNat v.toNat], args)
    | _ => .error .argument
  else if spec = chr 's' then
    match args with
    | .str s :: args => .ok ((s.getD (ascii "(null)")).takeWhile (· ≠ 0), args)
    | _ => .error .argument
  else if spec = chr 'p' then
    match args with
    | .num v :: args => .ok (ascii "0x" ++ out.puthex v 16, args)
    | _ => .error .argument
  else if spec = chr '%' then .ok ([chr '%'], args)
  else .ok ([chr '%', spec], args)

/-- The loop of `printf`, `n` rounds at most: the text, and where `fmt` points at the end. -/
def printfLoop (out : Writer) : Nat → List UInt8 → List Arg → Except Fault (List UInt8 × List UInt8)
  | 0, _, _ => .error .rounds
  | n + 1, fmt, args => do
    let c ← fmtChar fmt
    if c = 0 then .ok ([], fmt)
    else if c = chr '%' then
      let (zeroPad, fmt) ← parseFlags fmt.tail
      let (width, fmt) ← parseWidth 0 fmt
      let (length, fmt) ← parseLength fmt
      let spec ← fmtChar fmt
      let (text, args) ← putConversion out zeroPad width.toInt length spec args
      let (text', rest) ← printfLoop out n fmt.tail args
      .ok (text ++ text', rest)
    else
      let (text, rest) ← printfLoop out n fmt.tail args
      .ok (c :: text, rest)

/-- `uart_printf`. -/
def uartPrintf (fmt : List UInt8) (args : List Arg) : Except Fault (List UInt8 × List UInt8) :=
  printfLoop ⟨uartPutpad, uartPuthex⟩ (fmt.length + 1) fmt args

/-- `printf` of the user library. -/
def printf (fmt : List UInt8) (args : List Arg) : Except Fault (List UInt8 × List UInt8) :=
  printfLoop ⟨putpad, puthex⟩ (fmt.length + 1) fmt args

end RiscvOs
