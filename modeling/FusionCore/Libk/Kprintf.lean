import FusionCore.Lib.ByteMem

/-! # Formatted output (`libk/kprintf/kprintf.c`)

`_vsnprintf` and what it calls, over any output function: an output function of type `Out σ` takes a
character, the index, `maxlen` and what it writes to, which is of any type `σ`. A format is the list
of its characters up to the terminating zero, so an empty list is read as a zero character; stepping
past the terminator is the error `overrun`. An argument is the 64-bit slot `va_arg` reads, with the
string it points to where it points to one; taking an argument that was not passed and reading a
string through something else are the errors `noArgument` and `noString`.

`char` is signed, `int` has 32 bits, `long`, `long long` and pointers have 64. `idx` counts the characters
written, which never come near `2 ^ 64`. Neither `GENA_USE_SSE` nor `SSE_SUPPORT` is defined by the
build, so the floating-point conversions are not there: their letters go to the `default` case like
any other. -/

namespace FusionCore.Libk.Kprintf

open FusionCore.Lib.ByteMem

/-- The byte of a character. -/
def ch (c : Char) : UInt8 := UInt8.ofNat c.toNat

/-- The bytes of a string literal. -/
def str (s : String) : List UInt8 := s.toList.map ch

/-- The `FLAGS_` bits. -/
structure Flags where
  zeropad : Bool := false
  left : Bool := false
  plus : Bool := false
  space : Bool := false
  hash : Bool := false
  uppercase : Bool := false
  char : Bool := false
  short : Bool := false
  long : Bool := false
  longLong : Bool := false
  precision : Bool := false
  deriving DecidableEq, Repr

/-! ### Output functions -/

/-- `out_fct_type`. -/
abbrev Out (σ : Type) := UInt8 → ℕ → ℕ → σ → σ

/-- `_out_buffer`. -/
def outBuffer (buffer : ℕ) : Out Mem := fun character idx maxlen m =>
  if idx < maxlen then Function.update m (buffer + idx) character else m

/-- `_out_null`. -/
def outNull {σ : Type} : Out σ := fun _ _ _ s => s

/-- `_out_fct`. -/
def outFct {σ : Type} (fct : UInt8 → σ → σ) : Out σ := fun character _ _ s =>
  if character ≠ 0 then fct character s else s

section
variable {σ : Type} (out : Out σ) (maxlen : ℕ)

/-- `out(c, buffer, idx++, maxlen)`. -/
def put (c : UInt8) (p : ℕ × σ) : ℕ × σ := (p.1 + 1, out c p.1 maxlen p.2)

/-- `out` of each of the characters. -/
def puts : List UInt8 → ℕ × σ → ℕ × σ
  | [], p => p
  | c :: cs, p => puts cs (put out maxlen c p)

/-- `out(' ', ..)` a number of times. -/
def spaces : ℕ → ℕ × σ → ℕ × σ
  | 0, p => p
  | n + 1, p => spaces n (put out maxlen (ch ' ') p)

end

/-! ### Integers -/

/-- The buffer `buf[0 .. len)` of a conversion, lowest digit first. Every write to it is below
`PRINTF_NTOA_BUFFER_SIZE`. -/
@[ext] structure NtoaBuf where
  chars : List UInt8
  fits : chars.length ≤ 32
  deriving DecidableEq

namespace NtoaBuf

/-- `len`. -/
def len (b : NtoaBuf) : ℕ := b.chars.length

/-- `len = 0`. -/
def empty : NtoaBuf := ⟨[], by simp⟩

/-- `if (len < PRINTF_NTOA_BUFFER_SIZE) buf[len++] = c`. -/
def push (b : NtoaBuf) (c : UInt8) : NtoaBuf :=
  if h : b.chars.length < 32 then ⟨b.chars ++ [c], by simp; omega⟩ else b

/-- `len--`. -/
def pop (b : NtoaBuf) : NtoaBuf := ⟨b.chars.dropLast, by have := b.fits; simp; omega⟩

end NtoaBuf

/-- `digit < 10 ? '0' + digit : (flags & FLAGS_UPPERCASE ? 'A' : 'a') + digit - 10`. -/
def digitChar (uppercase : Bool) (digit : ℕ) : UInt8 :=
  UInt8.ofNat (if digit < 10 then 48 + digit else (if uppercase then 65 else 97) + digit - 10)

/-- The `do`-`while` loop over the digits of `value`; the buffer is full after 32 rounds. -/
def ntoaDigits (uppercase : Bool) (base : ℕ) : ℕ → ℕ → NtoaBuf → NtoaBuf
  | 0, _, buf => buf
  | k + 1, value, buf =>
    let buf := buf.push (digitChar uppercase (value % base))
    if value / base ≠ 0 ∧ buf.len < 32 then ntoaDigits uppercase base k (value / base) buf else buf

/-- `while ((len < n) && (len < PRINTF_NTOA_BUFFER_SIZE)) buf[len++] = '0'`, in at most 32 rounds. -/
def padZeros (n : ℕ) : ℕ → NtoaBuf → NtoaBuf
  | 0, buf => buf
  | k + 1, buf => if buf.len < n ∧ buf.len < 32 then padZeros n k (buf.push (ch '0')) else buf

section
variable {σ : Type} (out : Out σ) (maxlen : ℕ)

/-- `_out_rev`. -/
def outRev (buf : List UInt8) (width : ℕ) (flags : Flags) (p : ℕ × σ) : ℕ × σ :=
  let startIdx := p.1
  let p := if !flags.left && !flags.zeropad then spaces out maxlen (width - buf.length) p else p
  let p := puts out maxlen buf.reverse p
  if flags.left then spaces out maxlen (width - (p.1 - startIdx)) p else p

/-- The zero padding at the head of `_ntoa_format`, with the width it leaves. -/
def ntoaPad (buf : NtoaBuf) (negative : Bool) (prec width : ℕ) (flags : Flags) : NtoaBuf × ℕ :=
  if flags.left then (buf, width)
  else
    let width :=
      if width ≠ 0 ∧ flags.zeropad ∧ (negative ∨ flags.plus ∨ flags.space) then width - 1 else width
    let buf := padZeros prec 32 buf
    (if flags.zeropad then padZeros width 32 buf else buf, width)

/-- The digits the `FLAGS_HASH` part of `_ntoa_format` takes back, to make room for the prefix. -/
def hashStrip (buf : NtoaBuf) (base prec width : ℕ) (flags : Flags) : NtoaBuf :=
  if !flags.precision ∧ buf.len ≠ 0 ∧ (buf.len = prec ∨ buf.len = width) then
    if buf.pop.len ≠ 0 ∧ base = 16 then buf.pop.pop else buf.pop
  else buf

/-- The prefix the `FLAGS_HASH` part of `_ntoa_format` puts on, from its end. -/
def hashPrefix (buf : NtoaBuf) (base : ℕ) (flags : Flags) : NtoaBuf :=
  let buf :=
    if base = 16 ∧ !flags.uppercase ∧ buf.len < 32 then buf.push (ch 'x')
    else if base = 16 ∧ flags.uppercase ∧ buf.len < 32 then buf.push (ch 'X')
    else if base = 2 ∧ buf.len < 32 then buf.push (ch 'b')
    else buf
  buf.push (ch '0')

/-- The `FLAGS_HASH` part of `_ntoa_format`. -/
def ntoaHash (buf : NtoaBuf) (base prec width : ℕ) (flags : Flags) : NtoaBuf :=
  if flags.hash then hashPrefix (hashStrip buf base prec width flags) base flags else buf

/-- The sign at the end of `_ntoa_format`. -/
def ntoaSign (buf : NtoaBuf) (negative : Bool) (flags : Flags) : NtoaBuf :=
  if buf.len < 32 then
    if negative then buf.push (ch '-')
    else if flags.plus then buf.push (ch '+')
    else if flags.space then buf.push (ch ' ')
    else buf
  else buf

/-- `_ntoa_format`. -/
def ntoaFormat (buf : NtoaBuf) (negative : Bool) (base prec width : ℕ) (flags : Flags)
    (p : ℕ × σ) : ℕ × σ :=
  let (buf, width) := ntoaPad buf negative prec width flags
  let buf := ntoaHash buf base prec width flags
  let buf := ntoaSign buf negative flags
  outRev out maxlen buf.chars width flags p

/-- `_ntoa_long`. -/
def ntoaLong (value : ℕ) (negative : Bool) (base prec width : ℕ) (flags : Flags) (p : ℕ × σ) : ℕ × σ :=
  let flags := if value = 0 then { flags with hash := false } else flags
  let buf :=
    if !flags.precision ∨ value ≠ 0 then ntoaDigits flags.uppercase base 32 value .empty else .empty
  ntoaFormat out maxlen buf negative base prec width flags p

/-- `_ntoa_long_long`: the text of `_ntoa_long`, of which it is the copy for a type of the same width. -/
def ntoaLongLong (value : ℕ) (negative : Bool) (base prec width : ℕ) (flags : Flags)
    (p : ℕ × σ) : ℕ × σ :=
  ntoaLong out maxlen value negative base prec width flags p

end

/-! ### Arguments -/

/-- What `va_arg` reads: a 64-bit slot, and the zero-terminated string it points to, where there is
one. -/
structure Arg where
  word : BitVec 64
  str : Option (List UInt8) := none
  deriving DecidableEq

/-- What is undefined in C. -/
inductive Err
  | overrun
  | noArgument
  | noString
  deriving DecidableEq, Repr

/-- `va_arg`. -/
def vaArg : List Arg → Except Err (Arg × List Arg)
  | [] => .error .noArgument
  | a :: va => .ok (a, va)

/-- `va_arg(va, int)`. -/
def Arg.int (a : Arg) : ℤ := (a.word.setWidth 32).toInt

/-- The signed value of `%d`, converted by the length flags. -/
def signedValue (flags : Flags) (a : Arg) : ℤ :=
  if flags.longLong then a.word.toInt
  else if flags.long then a.word.toInt
  else if flags.char then (a.word.setWidth 8).toInt
  else if flags.short then (a.word.setWidth 16).toInt
  else a.int

/-- The unsigned value of `%u`, converted by the length flags. -/
def unsignedValue (flags : Flags) (a : Arg) : ℕ :=
  if flags.longLong then a.word.toNat
  else if flags.long then a.word.toNat
  else if flags.char then (a.word.setWidth 8).toNat
  else if flags.short then (a.word.setWidth 16).toNat
  else (a.word.setWidth 32).toNat

/-! ### The fields of a directive -/

/-- `_is_digit`. -/
def isDigit (c : UInt8) : Bool := ch '0' ≤ c && c ≤ ch '9'

/-- `_atoi` from the value `i` on: the value and the rest of the string. -/
def atoi (i : ℕ) : List UInt8 → ℕ × List UInt8
  | [] => (i, [])
  | c :: str => if isDigit c then atoi ((i * 10 + (c.toNat - 48)) % 2 ^ 32) str else (i, c :: str)

/-- `evaluate flags`. -/
def flagsField (flags : Flags) : List UInt8 → Flags × List UInt8
  | [] => (flags, [])
  | c :: format =>
    if c = ch '0' then flagsField { flags with zeropad := true } format
    else if c = ch '-' then flagsField { flags with left := true } format
    else if c = ch '+' then flagsField { flags with plus := true } format
    else if c = ch ' ' then flagsField { flags with space := true } format
    else if c = ch '#' then flagsField { flags with hash := true } format
    else (flags, c :: format)

/-- What is read of a directive: the flags, the width and the precision, with the rest of the format and
the arguments. -/
structure Fields where
  flags : Flags
  width : ℕ := 0
  precision : ℕ := 0
  format : List UInt8
  va : List Arg

/-- `evaluate width field`; `(unsigned int)-w` is `w.natAbs` for every negative `int`. -/
def widthField (f : Fields) : Except Err Fields :=
  match f.format with
  | [] => .ok f
  | c :: format =>
    if isDigit c then
      let (width, format) := atoi 0 (c :: format)
      .ok { f with width, format }
    else if c = ch '*' then do
      let (a, va) ← vaArg f.va
      if a.int < 0 then
        .ok { f with flags := { f.flags with left := true }, width := a.int.natAbs, format, va }
      else .ok { f with width := a.int.toNat, format, va }
    else .ok f

/-- `evaluate precision field`. -/
def precisionField (f : Fields) : Except Err Fields :=
  match f.format with
  | [] => .ok f
  | c :: format =>
    if c = ch '.' then
      let f := { f with flags := { f.flags with precision := true }, format }
      match format with
      | [] => .ok f
      | c :: format =>
        if isDigit c then
          let (precision, format) := atoi 0 (c :: format)
          .ok { f with precision, format }
        else if c = ch '*' then do
          let (a, va) ← vaArg f.va
          .ok { f with precision := a.int.toNat, format, va }
        else .ok f
    else .ok f

/-- `evaluate length field`; `ptrdiff_t`, `intmax_t` and `size_t` are as wide as `long`. -/
def lengthField (flags : Flags) : List UInt8 → Flags × List UInt8
  | [] => (flags, [])
  | c :: format =>
    if c = ch 'l' then
      match format with
      | [] => ({ flags with long := true }, [])
      | c :: format =>
        if c = ch 'l' then ({ flags with long := true, longLong := true }, format)
        else ({ flags with long := true }, c :: format)
    else if c = ch 'h' then
      match format with
      | [] => ({ flags with short := true }, [])
      | c :: format =>
        if c = ch 'h' then ({ flags with short := true, char := true }, format)
        else ({ flags with short := true }, c :: format)
    else if c = ch 't' ∨ c = ch 'j' ∨ c = ch 'z' then ({ flags with long := true }, format)
    else (flags, c :: format)

/-! ### The conversions -/

/-- The base of an integer conversion. -/
def baseOf (c : UInt8) : ℕ :=
  if c = ch 'x' ∨ c = ch 'X' then 16 else if c = ch 'o' then 8 else if c = ch 'b' then 2 else 10

/-- The flags as an integer conversion changes them. -/
def intFlags (c : UInt8) (flags : Flags) : Flags :=
  let flags := if baseOf c = 10 then { flags with hash := false } else flags
  let flags := if c = ch 'X' then { flags with uppercase := true } else flags
  let flags := if c ≠ ch 'i' ∧ c ≠ ch 'd' then { flags with plus := false, space := false } else flags
  if flags.precision then { flags with zeropad := false } else flags

/-- `_strnlen_s`: the length of `str`, limited by `maxsize`, as an `unsigned int`. -/
def strnlenS (str : List UInt8) (maxsize : ℕ) : ℕ := min str.length maxsize % 2 ^ 32

section
variable {σ : Type} (out : Out σ) (maxlen : ℕ)

/-- The integer conversions `d`, `i`, `u`, `x`, `X`, `o` and `b`. -/
def intConversion (c : UInt8) (f : Fields) (a : Arg) (p : ℕ × σ) : ℕ × σ :=
  let flags := intFlags c f.flags
  if c = ch 'i' ∨ c = ch 'd' then
    let value := signedValue flags a
    if flags.longLong then
      ntoaLongLong out maxlen value.natAbs (decide (value < 0)) (baseOf c) f.precision f.width flags p
    else ntoaLong out maxlen value.natAbs (decide (value < 0)) (baseOf c) f.precision f.width flags p
  else
    let value := unsignedValue flags a
    if flags.longLong then ntoaLongLong out maxlen value false (baseOf c) f.precision f.width flags p
    else ntoaLong out maxlen value false (baseOf c) f.precision f.width flags p

/-- The conversion `c`. -/
def charConversion (f : Fields) (a : Arg) (p : ℕ × σ) : ℕ × σ :=
  let p := if !f.flags.left then spaces out maxlen (f.width - 1) p else p
  let p := put out maxlen (UInt8.ofBitVec (a.word.setWidth 8)) p
  if f.flags.left then spaces out maxlen (f.width - 1) p else p

/-- The conversion `s`. -/
def strConversion (f : Fields) (str : List UInt8) (p : ℕ × σ) : ℕ × σ :=
  let l := strnlenS str (if f.precision ≠ 0 then f.precision else 2 ^ 64 - 1)
  let l := if f.flags.precision then (if l < f.precision then l else f.precision) else l
  let p := if !f.flags.left then spaces out maxlen (f.width - l) p else p
  let p := puts out maxlen (if f.flags.precision then str.take f.precision else str) p
  if f.flags.left then spaces out maxlen (f.width - l) p else p

/-- The conversion `p`. -/
def ptrConversion (f : Fields) (a : Arg) (p : ℕ × σ) : ℕ × σ :=
  ntoaLongLong out maxlen a.word.toNat false 16 f.precision 16
    { f.flags with zeropad := true, uppercase := true } p

/-- `evaluate specifier`: the rest of the format, the arguments, and what was put out. The `default` case
puts out the terminator and steps past it. -/
def specifier (f : Fields) (p : ℕ × σ) : Except Err (List UInt8 × List Arg × (ℕ × σ)) :=
  match f.format with
  | [] => .error .overrun
  | c :: format =>
    if c = ch 'd' ∨ c = ch 'i' ∨ c = ch 'u' ∨ c = ch 'x' ∨ c = ch 'X' ∨ c = ch 'o' ∨ c = ch 'b' then do
      let (a, va) ← vaArg f.va
      .ok (format, va, intConversion out maxlen c f a p)
    else if c = ch 'c' then do
      let (a, va) ← vaArg f.va
      .ok (format, va, charConversion out maxlen f a p)
    else if c = ch 's' then do
      let (a, va) ← vaArg f.va
      match a.str with
      | none => .error .noString
      | some str => .ok (format, va, strConversion out maxlen f str p)
    else if c = ch 'p' then do
      let (a, va) ← vaArg f.va
      .ok (format, va, ptrConversion out maxlen f a p)
    else if c = ch '%' then .ok (format, f.va, put out maxlen (ch '%') p)
    else .ok (format, f.va, put out maxlen c p)

/-- A directive, after its `%`. -/
def directive (format : List UInt8) (va : List Arg) (p : ℕ × σ) :
    Except Err (List UInt8 × List Arg × (ℕ × σ)) := do
  let (flags, format) := flagsField {} format
  let f ← widthField { flags, format, va }
  let f ← precisionField f
  let (flags, format) := lengthField f.flags f.format
  specifier out maxlen { f with flags, format } p

/-- The `while` loop of `_vsnprintf`: every round takes at least one character of the format, so as many
rounds as it has characters are enough. -/
def vsnprintfLoop : ℕ → List UInt8 → List Arg → ℕ × σ → Except Err (List Arg × (ℕ × σ))
  | _, [], va, p => .ok (va, p)
  | 0, _ :: _, _, _ => .error .overrun
  | k + 1, c :: format, va, p =>
    if c ≠ ch '%' then vsnprintfLoop k format va (put out maxlen c p)
    else do
      let (format, va, p) ← directive out maxlen format va p
      vsnprintfLoop k format va p

end

/-- `_vsnprintf`: what is written, and the number returned. -/
def vsnprintf {σ : Type} (out : Out σ) (buffer maxlen : ℕ) (format : List UInt8) (va : List Arg) (s : σ) :
    Except Err (σ × ℤ) := do
  let out := if buffer = 0 then outNull else out
  let (_, idx, s) ← vsnprintfLoop out maxlen format.length format va (0, s)
  let s := out 0 (if idx < maxlen then idx else (maxlen + 2 ^ 64 - 1) % 2 ^ 64) maxlen s
  .ok (s, ((BitVec.ofNat 32 idx).toInt))

/-- `vsnprintf_`, and `snprintf_` and `sprintf_` (whose `count` is `(size_t)-1`) with their arguments. -/
def vsnprintfBuffer (buffer count : ℕ) (format : List UInt8) (va : List Arg) (m : Mem) :
    Except Err (Mem × ℤ) :=
  vsnprintf (outBuffer buffer) buffer count format va m

/-- `fctprintf`; the wrapper that holds `fct` is on the stack. -/
def fctprintf {σ : Type} (fct : UInt8 → σ → σ) (outFctWrap : ℕ) (format : List UInt8)
    (va : List Arg) (s : σ) :
    Except Err (σ × ℤ) := vsnprintf (outFct fct) outFctWrap (2 ^ 64 - 1) format va s

end FusionCore.Libk.Kprintf
