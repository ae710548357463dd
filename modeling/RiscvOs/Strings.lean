import RiscvOs.Format
import RiscvOs.Lib.CString

/-!
# Strings that are written

`itoa_unsigned`, `itoa_signed` and `strip_elf_extension` with the memory that they write. The kernel and the user
library have the first two in the same words.
-/

namespace RiscvOs

open ByteMem CString

/-! ## Numbers -/

/-- `while (i > 0) *str++ = buf[--i]`, with where `str` ends. -/
def invert (buf : List UInt8) : Nat → Nat → Mem → Except Halt (Nat × Mem)
  | 0, str, m => .ok (str, m)
  | i + 1, str, m =>
    match buf[i]? with
    | none => .error .undefined
    | some c => invert buf i (str + 1) (Function.update m str c)

/-- `itoa_unsigned(value, str, base)`. -/
def itoaUnsignedTo (value : BitVec 32) (str base : Nat) (m : Mem) : Except Halt Mem :=
  if base < 2 ∨ 16 < base then .ok (Function.update m str 0)
  else do
    let buf ← itoaLoop base 33 value.toNat
    let (str, m) ← invert buf buf.length str m
    .ok (Function.update m str 0)

/-- `itoa_signed(value, str, base)`. -/
def itoaSignedTo (value : BitVec 32) (str base : Nat) (m : Mem) : Except Halt Mem :=
  if base < 2 ∨ 16 < base then .ok (Function.update m str 0)
  else if value.toInt < 0 ∧ base = 10 then itoaUnsignedTo (-value) (str + 1) base (Function.update m str (chr '-'))
  else itoaUnsignedTo value str base m

/-! ## Names -/

/-- `strncpy(dest, src, n)`. -/
def strncpy : Nat → Nat → Nat → Mem → Mem
  | _, _, 0, m => m
  | dest, src, n + 1, m =>
    if m src = 0 then memset m dest 0 (n + 1) else strncpy (dest + 1) (src + 1) n (Function.update m dest (m src))

/-- The inner loop of `strstr`: what is left of `needle` when `*h` is another character. -/
def matchFrom (m : Mem) : Nat → List UInt8 → List UInt8
  | _, [] => []
  | h, c :: needle => if m h ≠ 0 ∧ m h = c then matchFrom m (h + 1) needle else c :: needle

/-- The loop of `strstr`, with a bound on its rounds; NULL is 0. -/
def strstrLoop (m : Mem) (needle : List UInt8) : Nat → Nat → Except Halt Nat
  | 0, _ => .error .spin
  | n + 1, haystack =>
    if m haystack = 0 then .ok 0
    else if matchFrom m haystack needle = [] then .ok haystack
    else strstrLoop m needle n (haystack + 1)

/-- `strstr`. -/
def strstr (m : Mem) (haystack : Nat) (needle : List UInt8) (n : Nat) : Except Halt Nat :=
  if needle = [] then .ok haystack else strstrLoop m needle n haystack

/-- The extension. -/
def dotElf : List UInt8 := ascii ".elf"

/-- The body of both functions `strip_elf_extension`. -/
def stripDotElf (progname outName maxlen : Nat) (m : Mem) : Except Halt Mem :=
  if progname = 0 ∨ outName = 0 ∨ maxlen = 0 then .ok m
  else do
    let m := strncpy outName progname (maxlen - 1) m
    let m := Function.update m (outName + (maxlen - 1)) 0
    let dot ← strstr m outName dotElf maxlen
    -- the first `.elf`, which need not be the last
    if dot ≠ 0 ∧ eqAt m dot dotElf then .ok (Function.update m dot 0) else .ok m

/-- `strip_elf_extension` of `process.c`. -/
def stripElfExtensionKernel (progname outName maxlen : Nat) (m : Mem) : Except Halt Mem :=
  stripDotElf progname outName maxlen m

/-- `strip_elf_extension` of the user library. -/
def stripElfExtensionUser (progname outName maxlen : Nat) (m : Mem) : Except Halt Mem :=
  stripDotElf progname outName maxlen m

end RiscvOs
