import FusionCore.Dd.ApicSpec
import FusionCore.Dd.Pic
import FusionCore.Mm.Bmap

/-! # Setting up the I/O APICs (`apic_init` in `dd/apic/apic.c`)

`apic_init` gives each of the 16 ISA lines a redirection entry, all of them masked, and then goes over the
lines once more with a bitmap of the interrupts it has used. The local APIC is its registers by their
offsets; `calls` keeps the calls of `ioapic_set_gsi_redir` in their order. `map` is what `malloc(16)` has
returned. -/

namespace FusionCore.Dd.ApicInit

open FusionCore.Lib.ByteMem FusionCore.Mm.Defs FusionCore.Mm.Bmap
open FusionCore.Dd.Apic FusionCore.Dd.ApicSpec FusionCore.Dd.Pic

/-- The fields of `madt_iso_t` the driver reads. -/
structure MadtIso where
  irqSrc : BitVec 8
  gsi : BitVec 32
  flags : BitVec 16
  deriving DecidableEq, Repr

/-- What `apic_init` works on; `edx` is what `cpuid` leaves there for the leaf of the features. -/
structure Platform where
  edx : BitVec 32
  lapic : BitVec 32 → BitVec 32
  pics : Pics
  ioapics : Ioapics
  madtIsos : List MadtIso
  mem : Mem
  calls : List RedirCall

/-- `apic_is_avail`. -/
def apicIsAvail (p : Platform) : Bool := p.edx &&& (1#32 <<< 9) ≠ 0

/-- `lapic_read_reg`. -/
def lapicReadReg (p : Platform) (reg : BitVec 32) : BitVec 32 := p.lapic reg

/-- `lapic_write_reg`. -/
def lapicWriteReg (p : Platform) (reg data : BitVec 32) : Platform :=
  { p with lapic := Function.update p.lapic reg data }

/-- `lapic_enable`; `LAPIC_SPURIOUS_REG` is `0x0F0` and `SPURIOUS_INT` is `255`. -/
def lapicEnable (p : Platform) : Platform :=
  lapicWriteReg p 0x0F0#32 (lapicReadReg p 0x0F0#32 ||| (1#32 <<< 8) ||| 255#32)

/-- `lapic_get_id`; `LAPIC_ID_REG` is `0x020`. -/
def lapicGetId (p : Platform) : BitVec 8 := (lapicReadReg p 0x020#32 >>> 24).setWidth 8

/-- A call of `ioapic_set_gsi_redir`. -/
def setGsiRedir (p : Platform) (c : RedirCall) : Option Platform :=
  (exec p.ioapics c).map fun s => { p with ioapics := s, calls := p.calls ++ [c] }

/-- `ioapic_set_irq_redir`: the interrupt it has used, and the platform. -/
def ioapicSetIrqRedir (p : Platform) (lapicId : BitVec 32) (vector irq : BitVec 8) (mask : Bool) :
    Option (BitVec 32 × Platform) :=
  match p.madtIsos.find? (·.irqSrc = irq) with
  | some iso => (setGsiRedir p ⟨lapicId, vector, iso.gsi, iso.flags, mask⟩).map (iso.gsi, ·)
  | none => (setGsiRedir p ⟨lapicId, vector, irq.setWidth 32, 0, mask⟩).map (irq.setWidth 32, ·)

/-- `ioapic_set_irq_redir(lapic_get_id(), i + 32, i, true)`. -/
def redirLine (p : Platform) (i : ℕ) : Option (BitVec 32 × Platform) :=
  ioapicSetIrqRedir p ((lapicGetId p).setWidth 32) (BitVec.ofNat 8 (i + 32)) (BitVec.ofNat 8 i) true

/-- The first loop with `k` iterations left. -/
def firstLoop : ℕ → ℕ → Platform → Option Platform
  | 0, _, p => some p
  | k + 1, i, p => do
    let r ← redirLine p i
    firstLoop k (i + 1) r.2

/-- The second loop with `k` iterations left. -/
def secondLoop (irqBitmap : Bitmap) : ℕ → ℕ → Platform → Option Platform
  | 0, _, p => some p
  | k + 1, i, p =>
    if bitmapGet p.mem irqBitmap (toInt i) = 0 then do
      let r ← redirLine p i
      secondLoop irqBitmap k (i + 1) { r.2 with mem := bitmapSet r.2.mem irqBitmap (toInt r.1.toNat) }
    else secondLoop irqBitmap k (i + 1) p

/-- `memset` of the first `n` bytes at `ptr`. -/
def memset (m : Mem) (ptr : ℕ) (val : UInt8) : ℕ → Mem
  | 0 => m
  | n + 1 => Function.update (memset m ptr val n) (physOf ((ptr + n) % 2 ^ 64)) val

/-- `apic_init`. -/
def apicInit (map : ℕ) (p : Platform) : Option Platform :=
  if apicIsAvail p then do
    let p ← firstLoop 16 0 (lapicEnable { p with pics := picDisable p.pics })
    secondLoop ⟨map, 16⟩ 16 0 { p with mem := memset p.mem map 0 16 }
  else none

end FusionCore.Dd.ApicInit
