import FusionCore.Libk.KprintfSpec
import FusionCore.Dd.Com

/-! # Messages on the serial line (`libk/serial/debug.c`, `libk/serial/log.c`, `libk/assert.c`)

`debug` formats into `dbg_buf` and sends what is there, `log_impl` formats a message into `log_buf`
and hands it to `debug` with the colour and the head of its kind. Both give the formatter
`(size_t)-1` as the size of the buffer. `Console` is memory, the strings handed to `com_send_string`,
one for each call, and whether the processor is in the loop in which a `PANIC` ends.

A string argument is what it points to when the call is made. `file` and its likes are the arguments
as the compiler passes them. -/

namespace FusionCore.Libk.Log

open FusionCore.Lib.ByteMem FusionCore.Libk.Kprintf

/-- The zero-terminated string at an address, if it is shorter than `k`. -/
def cstr (m : Mem) : ℕ → ℕ → Option (List UInt8)
  | 0, _ => none
  | k + 1, a => if m a = 0 then some [] else (cstr m k (a + 1)).map (m a :: ·)

/-- Memory, what has been sent, and whether the processor has stopped. -/
structure Console where
  mem : Mem
  strs : List (List UInt8)
  halted : Bool := false

/-- `log_status_t`. -/
inductive LogStatus
  | info
  | warning
  | panic
  | success
  | fail
  deriving DecidableEq, Repr

/-- The colour of a message: `TERM_CYAN`, `TERM_YELLOW`, `TERM_RED`, `TERM_GREEN`, `TERM_PURPLE`. -/
def LogStatus.color : LogStatus → List UInt8
  | .info => 27 :: str "[0;36m"
  | .warning => 27 :: str "[0;33m"
  | .panic => 27 :: str "[0;31m"
  | .success => 27 :: str "[0;32m"
  | .fail => 27 :: str "[0;35m"

/-- `TERM_COLOR_RESET`. -/
def termColorReset : List UInt8 := 27 :: str "[0m"

/-- The head of a message. -/
def LogStatus.head : LogStatus → List UInt8
  | .info => str "[INFO]    | "
  | .warning => str "[WARNING] | "
  | .panic => str "[PANIC]   | "
  | .success => str "[ * ]\t| "
  | .fail => str "[ ! ]\t| "

/-- The format of the line. -/
def LogStatus.format (status : LogStatus) : List UInt8 := status.head ++ str "%s:%d -> %s"

/-- `com_send_string(COM1, ..)`. -/
def comSendString (s : List UInt8) (con : Console) : Console := { con with strs := con.strs ++ [s] }

section
variable (dbgBuf logBuf : ℕ)

/-- `debug`. -/
def debug (fmt : List UInt8) (va : List Arg) (con : Console) : Except Err Console := do
  let (mem, _) ← vsnprintfBuffer dbgBuf (2 ^ 64 - 1) fmt va con.mem
  match cstr mem (2 ^ 64) dbgBuf with
  | none => .error .noString
  | some s => .ok (comSendString s { con with mem })

/-- A call of `log_impl`. -/
structure LogCall where
  file : Arg
  lineNr : Arg
  status : LogStatus
  fmt : List UInt8
  va : List Arg

/-- `log_impl`. The colours begin as `debug_set_col` asserts, which then sends them (`logImpl_source`). -/
def logImpl (c : LogCall) (con : Console) : Except Err Console := do
  let (mem, _) ← vsnprintfBuffer logBuf (2 ^ 64 - 1) c.fmt c.va con.mem
  let con := comSendString c.status.color { con with mem }
  let con ← debug dbgBuf c.status.format
    [c.file, c.lineNr, { word := BitVec.ofNat 64 logBuf, str := cstr mem (2 ^ 64) logBuf }] con
  if c.status = .panic then .ok { con with halted := true } else .ok (comSendString termColorReset con)

/-- `__assert`; `self` and `selfLine` are its own `__FILE__` and `__LINE__`. -/
def kassert (self selfLine file lineNr : Arg) (cond : Bool) (condStr : Arg) (con : Console) :
    Except Err Console :=
  if !cond then
    logImpl dbgBuf logBuf
      { file := self, lineNr := selfLine, status := .panic,
        fmt := str "Assert failed at: %s:%d with %s as the condition\n", va :=
          [file, lineNr, condStr] } con
  else .ok con

/-- `debug_set_col`. -/
def debugSetCol (self selfLine file lineNr condStr : Arg) (colCode : List UInt8) (con : Console) :
    Except Err Console := do
  let con ← kassert dbgBuf logBuf self selfLine file lineNr
    (colCode.getD 0 0 = 27 ∧ colCode.getD 1 0 = ch '[') condStr con
  if con.halted then .ok con else .ok (comSendString colCode con)

/-- Messages one after the other; nothing comes after the loop of a `PANIC`. -/
def logs : List LogCall → Console → Except Err Console
  | [], con => .ok con
  | c :: cs, con =>
    if con.halted then .ok con
    else do
      let con ← logImpl dbgBuf logBuf c con
      logs cs con

end

end FusionCore.Libk.Log
