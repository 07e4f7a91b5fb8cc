import Mathlib.Tactic

/-! # The interrupt controllers of the PC (`dd/pic/pic.c`, `dd/pic/pic.h`)

The two 8259 chips are `Pics`, on the ports the hardware gives them: `0x20` and `0x21` for the
master, `0xA0` and `0xA1` for the slave. A command with bit 4 set starts the initialisation: it
clears the mask, and the next three data writes are the words ICW2 to ICW4. In operation a data write
sets the mask and a data read returns it.

The port constants are those of `pic.h`, where `PIC2_COMMAND` and `PIC2_DATA` are written with `PIC1`. -/

namespace FusionCore.Dd.Pic

/-! ### The chips -/

/-- What the next data write of a chip is. -/
inductive Phase
  | ready
  | icw2
  | icw3
  | icw4
  deriving DecidableEq, Repr

/-- One 8259. -/
structure Chip where
  phase : Phase
  mask : BitVec 8
  vectorBase : BitVec 8
  cascade : BitVec 8
  mode : BitVec 8
  deriving DecidableEq, Repr

/-- A write to the command port. -/
def Chip.command (c : Chip) (v : BitVec 8) : Chip :=
  if v.getLsbD 4 then { c with phase := .icw2, mask := 0#8 } else c

/-- A write to the data port. -/
def Chip.data (c : Chip) (v : BitVec 8) : Chip :=
  match c.phase with
  | .ready => { c with mask := v }
  | .icw2 => { c with phase := .icw3, vectorBase := v }
  | .icw3 => { c with phase := .icw4, cascade := v }
  | .icw4 => { c with phase := .ready, mode := v }

/-- The two chips. -/
structure Pics where
  master : Chip
  slave : Chip
  deriving DecidableEq, Repr

/-- `io_outb`. -/
def ioOutb (p : Pics) (port : ℕ) (val : BitVec 8) : Pics :=
  if port = 0x20 then { p with master := p.master.command val }
  else if port = 0x21 then { p with master := p.master.data val }
  else if port = 0xA0 then { p with slave := p.slave.command val }
  else if port = 0xA1 then { p with slave := p.slave.data val }
  else p

/-- `io_inb` of a data port; no other port is read for its value. -/
def ioInb (p : Pics) (port : ℕ) : BitVec 8 :=
  if port = 0x21 then p.master.mask else if port = 0xA1 then p.slave.mask else 0xFF#8

/-! ### The driver -/

/-- `PIC1`. -/
def pic1 : ℕ := 0x20

/-- `PIC2`. -/
def pic2 : ℕ := 0xA0

/-- `PIC1_COMMAND`. -/
def pic1Command : ℕ := pic1

/-- `PIC1_DATA`. -/
def pic1Data : ℕ := pic1 + 1

/-- `PIC2_COMMAND`. -/
def pic2Command : ℕ := pic1

/-- `PIC2_DATA`. -/
def pic2Data : ℕ := pic1 + 1

/-- `pic_disable`. -/
def picDisable (p : Pics) : Pics := ioOutb (ioOutb p pic2Data 0xFF#8) pic1Data 0xFF#8

/-- `ICW4_8086`. -/
def icw4_8086 : BitVec 8 := 0x01#8

/-- `pic_remap`. `io_wait` reads port `0x80`, which is none of the chips'. -/
def picRemap (p : Pics) : Pics :=
  let mask1 := ioInb p pic1Data
  let mask2 := ioInb p pic2Data
  let p := ioOutb (ioOutb p pic1Command 0x11#8) pic2Command 0x11#8
  let p := ioOutb (ioOutb p pic1Data 0x20#8) pic2Data 0x28#8
  let p := ioOutb (ioOutb p pic1Data 0x04#8) pic2Data 0x02#8
  let p := ioOutb (ioOutb p pic1Data 0x01#8) pic2Data 0x01#8
  let p := ioOutb (ioOutb p pic1Data 0x00#8) pic2Data 0x00#8
  let p := ioOutb (ioOutb p pic1Data icw4_8086) pic2Data icw4_8086
  ioOutb (ioOutb p pic1Data mask1) pic2Data mask2

/-- `1 << irq_line`, as the byte it is combined with sees it; x86 shifts by the count modulo 32. -/
def lineBit (irqLine : ℕ) : BitVec 8 := (1#32 <<< (irqLine % 32)).setWidth 8

/-- The port and the line on it, as `pic_set_mask` and `pic_clear_mask` choose them. -/
def portOf (irqLine : ℕ) : ℕ × ℕ :=
  if irqLine < 8 then (pic1Data, irqLine) else (pic2Data, irqLine - 8)

/-- `pic_set_mask`. -/
def picSetMask (p : Pics) (irqLine : ℕ) : Pics :=
  let port := (portOf irqLine).1
  let value := ioInb p port ||| lineBit (portOf irqLine).2
  ioOutb p port value

/-- `pic_clear_mask`. -/
def picClearMask (p : Pics) (irqLine : ℕ) : Pics :=
  let port := (portOf irqLine).1
  let value := ioInb p port &&& ~~~ lineBit (portOf irqLine).2
  ioOutb p port value

/-- `pic_signal_eoi`: the port writes it makes. -/
def picSignalEoi (isrNumber : BitVec 64) : List (ℕ × ℕ) :=
  (if 40#64 ≤ isrNumber then [(pic2Command, 0x20)] else []) ++ [(pic1Command, 0x20)]

end FusionCore.Dd.Pic
