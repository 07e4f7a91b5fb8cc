import Mathlib.Tactic

/-! # The serial port (`dd/com/com.c`)

The chip behind a serial port, a 16550, is `Uart`: the registers the driver writes, the characters
that wait to be sent, and those that have gone out on the line or have come in and wait to be read.
With its FIFO enabled it holds sixteen characters to be sent, otherwise one; a character written when
it is full is lost. Bit 7 of the line control register puts the divisor in the place of the data and
the interrupt registers. Bit 5 of the line status register says that no character waits to be sent,
bit 0 that one can be read.

The processor and the chip take turns. A turn of the processor in `com_send_string` is one read or
write of the loop (`Sender.cpu`), a turn of the chip sends one character (`Uart.tick`). -/

namespace FusionCore.Dd.Com

/-! ### The chip -/

/-- The chip. -/
structure Uart where
  ier : BitVec 8 := 0#8
  lcr : BitVec 8 := 0#8
  mcr : BitVec 8 := 0#8
  dll : BitVec 8 := 0#8
  dlm : BitVec 8 := 0#8
  fifoEnabled : Bool := false
  waiting : List UInt8 := []
  line : List UInt8 := []
  received : List UInt8 := []
  deriving DecidableEq

namespace Uart

/-- The divisor latch access bit. -/
def dlab (u : Uart) : Bool := u.lcr.getLsbD 7

/-- How many characters can wait. -/
def depth (u : Uart) : ℕ := if u.fifoEnabled then 16 else 1

/-- A character written to be sent. -/
def transmit (u : Uart) (c : UInt8) : Uart :=
  if u.waiting.length < u.depth then { u with waiting := u.waiting ++ [c] } else u

/-- A write of the FIFO control register: bit 0 enables the FIFO, a change of it and bits 1 and 2
clear it. -/
def fifoControl (u : Uart) (v : BitVec 8) : Uart :=
  let changed := u.fifoEnabled != v.getLsbD 0
  { u with
    fifoEnabled := v.getLsbD 0
    received := if changed || v.getLsbD 1 then [] else u.received
    waiting := if changed || v.getLsbD 2 then [] else u.waiting }

/-- `io_outb` to a port of the chip at `port`. -/
def ioOutb (u : Uart) (port offset : ℕ) (v : BitVec 8) : Uart :=
  if offset = port then if u.dlab then { u with dll := v } else u.transmit (UInt8.ofBitVec v)
  else if offset = port + 1 then if u.dlab then { u with dlm := v } else { u with ier := v }
  else if offset = port + 2 then u.fifoControl v
  else if offset = port + 3 then { u with lcr := v }
  else if offset = port + 4 then { u with mcr := v }
  else u

/-- The line status register. -/
def lsr (u : Uart) : BitVec 8 :=
  (if u.received = [] then 0#8 else 1#8) ||| (if u.waiting = [] then 0x20#8 else 0#8)

/-- `io_inb` from a port of the chip: the value, and the chip, from which a character may have been
taken. -/
def ioInb (u : Uart) (port offset : ℕ) : BitVec 8 × Uart :=
  if offset = port then
    if u.dlab then (u.dll, u) else ((u.received.headD 0).toBitVec, { u with received := u.received.tail })
  else if offset = port + 5 then (u.lsr, u)
  else (0xFF#8, u)

/-- The chip sends one character. -/
def tick (u : Uart) : Uart :=
  match u.waiting with
  | [] => u
  | c :: cs => { u with line := u.line ++ [c], waiting := cs }

/-- What the chip has been given to send, in this order. -/
def sent (u : Uart) : List UInt8 := u.line ++ u.waiting

end Uart

/-! ### The driver -/

/-- `com_init`. -/
def comInit (u : Uart) (port : ℕ) : Uart :=
  let u := u.ioOutb port (port + 1) 0x00#8
  let u := u.ioOutb port (port + 3) 0x80#8
  let u := u.ioOutb port (port + 0) 0x03#8
  let u := u.ioOutb port (port + 1) 0x00#8
  let u := u.ioOutb port (port + 3) 0x03#8
  let u := u.ioOutb port (port + 2) 0xC7#8
  u.ioOutb port (port + 4) 0x0B#8

/-- `com_is_transmit_empty`. -/
def comIsTransmitEmpty (u : Uart) (port : ℕ) : Bool := (u.ioInb port (port + 5)).1 &&& 0x20#8 ≠ 0#8

/-- Where the processor is in `com_send_string`: before the test of the loop, in the loop of
`com_send_char`, or behind it. -/
inductive Pc
  | test
  | poll
  | out
  deriving DecidableEq, Repr

/-- The processor, with the strings it has still to send, the first of them from the character
`str[i]` on, and the chip. -/
structure Sender where
  todo : List (List UInt8)
  pc : Pc := .test
  uart : Uart

namespace Sender

/-- A turn of the processor. An empty list is `str[i] = 0`; the next string then is the next call. -/
def cpu (port : ℕ) (st : Sender) : Sender :=
  match st.todo with
  | [] => st
  | [] :: strs => { st with todo := strs, pc := .test }
  | (c :: str) :: strs =>
    match st.pc with
    | .test => { st with pc := .poll }
    | .poll => if comIsTransmitEmpty st.uart port then { st with pc := .out } else st
    | .out => { todo := str :: strs, pc := .test, uart := st.uart.ioOutb port port c.toBitVec }

end Sender

/-- Who takes a turn. -/
inductive Turn
  | cpu
  | chip
  deriving DecidableEq, Repr

/-- The processor and the chip take turns. -/
def step (port : ℕ) : Turn → Sender → Sender
  | .cpu, st => st.cpu port
  | .chip, st => { st with uart := st.uart.tick }

end FusionCore.Dd.Com
