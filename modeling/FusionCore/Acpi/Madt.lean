import FusionCore.Acpi.Sdt

/-! # The MADT (`acpi/tbl/madt.c`, `acpi/tbl/madt.h`)

The table is read in place through the pointer `_acpi_find_sdt` returns. After the header of 36 bytes
and two 32-bit fields come the entries, each with its type and its length in the first two bytes. The
four arrays are objects of `malloc(256)`, apart from the table; `slots` also has the places beyond
the 32 pointers an object has room for.

The loop gets `fuel` and comes to `none` where it would go on. Its messages are left out, and so are
`lapic_addr` and the flags of the table, which nothing here reads. -/

namespace FusionCore.Acpi.Madt

open FusionCore.Lib.ByteMem FusionCore.Mm.Defs FusionCore.Acpi.Sdt

/-- The structures for which there is an array: `madt_lapic_t`, `madt_ioapic_t`, `madt_iso_t` and
`madt_lapic_nmi_t`. -/
inductive Kind
  | lapic
  | ioapic
  | iso
  | lapicNmi
  deriving DecidableEq, Repr

/-- An array of pointers and its counter. -/
structure PtrArray where
  slots : ℕ → ℕ
  count : ℕ

/-- `array[count++] = p`. -/
def PtrArray.push (a : PtrArray) (p : ℕ) : PtrArray := ⟨Function.update a.slots a.count p, a.count + 1⟩

/-- The four arrays. -/
abbrev Arrays := Kind → PtrArray

/-- `madt_lapics` and `madt_lapics_i`. -/
def madtLapics (s : Arrays) : PtrArray := s .lapic

/-- `madt_ioapics` and `madt_ioapics_i`. -/
def madtIoapics (s : Arrays) : PtrArray := s .ioapic

/-- `madt_isos` and `madt_isos_i`. -/
def madtIsos (s : Arrays) : PtrArray := s .iso

/-- `madt_lapic_nmis` and `madt_lapic_nmis_i`. -/
def madtLapicNmis (s : Arrays) : PtrArray := s .lapicNmi

/-- The labels of the `switch`. -/
def kindOf (type : UInt8) : Option Kind :=
  if type = 0 then some .lapic
  else if type = 1 then some .ioapic
  else if type = 2 then some .iso
  else if type = 4 then some .lapicNmi
  else none

/-- The body of the loop. -/
def recordEntry (m : Mem) (entryPtr : ℕ) (s : Arrays) : Arrays :=
  match kindOf (m (physOf entryPtr)) with
  | some k => Function.update s k ((s k).push entryPtr)
  | none => s

/-- `entry_ptr += *(entry_ptr + 1)`. -/
def advance (m : Mem) (entryPtr : ℕ) : ℕ :=
  (entryPtr + (m (physOf ((entryPtr + 1) % 2 ^ 64))).toNat) % 2 ^ 64

/-- The loop of `_acpi_madt_init`. -/
def entryLoop (m : Mem) (stop : ℕ) : ℕ → ℕ → Arrays → Option Arrays
  | 0, _, _ => none
  | fuel + 1, entryPtr, s =>
    if entryPtr < stop then
      entryLoop m stop fuel (advance m entryPtr) (recordEntry m entryPtr s)
    else some s

/-- `&madt->entries`. -/
def entriesPtr (madt : ℕ) : ℕ := (madt + 44) % 2 ^ 64

/-- `(size_t)&madt->hdr + madt->hdr.len`. -/
def endPtr (m : Mem) (madt : ℕ) : ℕ := (madt + sdtLen m (physOf madt)) % 2 ^ 64

/-- The loop over the table at `madt`. -/
def entriesLoop (fuel : ℕ) (m : Mem) (madt : ℕ) (s : Arrays) : Option Arrays :=
  entryLoop m (endPtr m madt) fuel (entriesPtr madt) s

/-- Why `_acpi_madt_init` does not return. -/
inductive Halt
  | findSdt (h : Sdt.Halt)
  | madtNotFound
  | outOfFuel
  deriving DecidableEq, Repr

/-- `"APIC"`. -/
def sigApic (i : ℕ) : UInt8 := [0x41, 0x50, 0x49, 0x43].getD i 0

/-- `_acpi_madt_init` from the result of `_acpi_find_sdt` on. -/
def initFrom (fuel : ℕ) (m : Mem) (s : Arrays) (found : Except Sdt.Halt ℕ) : Except Halt (ℕ × Arrays) :=
  match found with
  | .error h => .error (.findSdt h)
  | .ok madt =>
    if madt = 0 then .error .madtNotFound
    else
      match entriesLoop fuel m madt s with
      | none => .error .outOfFuel
      | some s => .ok (madt, s)

/-- `_acpi_madt_init`, with what is in the arrays before: `madt` and the arrays. -/
def acpiMadtInit (fuel : ℕ) (m : Mem) (t : Roots) (s : Arrays) : Except Halt (ℕ × Arrays) :=
  initFrom fuel m s (acpiFindSdt fuel m t sigApic)

end FusionCore.Acpi.Madt
