import FusionCore.Mm.Defs

/-! # The ACPI tables (`acpi/acpi.c`, `acpi/tbl/rsdt.c`, `acpi/tbl/rsdt.h`, `acpi/tbl/sdt.h`)

Tables are bytes in memory, named by their physical addresses: the kernel reads the RSDT and the XSDT
through the direct map and the tables they list through the identity map. A header (`sdt_t`) has 36
bytes: the signature at offset 0, the length at offset 4. The entries of both root tables are
declared as 32-bit words.

The counter of the checksum loop is a `uint8_t`; the loop gets `fuel` and reports `outOfFuel` where
it would go on. `log(PANIC, ..)` does not return. -/

namespace FusionCore.Acpi.Sdt

open FusionCore.Lib.ByteMem FusionCore.Mm.Defs

/-- The messages of `log(PANIC, ..)`. -/
inductive Message
  | sdtNotFound
  | invalidChecksum (cs : UInt8)
  | rsdpChecksum (cs : UInt8)
  | rootNotFound
  deriving DecidableEq, Repr

/-- Why a call does not return. -/
inductive Halt
  | panic (msg : Message)
  | outOfFuel
  deriving DecidableEq, Repr

/-- `memcmp`: the first difference of the `n` bytes from `i` on. -/
def memcmp (p1 p2 : ℕ → UInt8) : ℕ → ℕ → ℤ
  | 0, _ => 0
  | n + 1, i => if p1 i ≠ p2 i then (p1 i).toNat - (p2 i).toNat else memcmp p1 p2 n (i + 1)

/-- `sdt_t.len`. -/
def sdtLen (m : Mem) (sdt : ℕ) : ℕ := load m 4 (sdt + 4)

/-- The loop of `_acpi_verify_sdt_checksum`. -/
def checksumLoop (m : Mem) (sdt : ℕ) : ℕ → UInt8 → UInt8 → Option UInt8
  | 0, _, _ => none
  | fuel + 1, i, cs =>
    if i.toNat < sdtLen m sdt then checksumLoop m sdt fuel (i + 1) (cs + m (sdt + i.toNat)) else some cs

/-- `_acpi_verify_sdt_checksum`. -/
def acpiVerifySdtChecksum (fuel : ℕ) (m : Mem) (sdt : ℕ) : Except Halt Bool :=
  match checksumLoop m sdt fuel 0 0 with
  | none => .error .outOfFuel
  | some cs => if cs = 0 then .ok true else .error (.panic (.invalidChecksum cs))

/-- `_acpi_verify_sdt`; `sig` is the signature's bytes. -/
def acpiVerifySdt (fuel : ℕ) (m : Mem) (sdt : ℕ) (sig : ℕ → UInt8) : Except Halt Bool :=
  if memcmp (fun i => m (sdt + i)) sig 4 0 = 0 then acpiVerifySdtChecksum fuel m sdt else .ok false

/-- `rsdt`, `xsdt` and `has_xsdt`. -/
structure Roots where
  rsdt : ℕ
  xsdt : ℕ
  hasXsdt : Bool
  deriving DecidableEq, Repr

/-- The table `_acpi_find_sdt` goes through. -/
def Roots.table (t : Roots) : ℕ := if t.hasXsdt then t.xsdt else t.rsdt

/-- `entry_count`: the difference to the header's size is a `size_t`. -/
def entryCount (m : Mem) (t : Roots) : ℕ :=
  (sdtLen m t.table + (2 ^ 64 - 36)) % 2 ^ 64 / if t.hasXsdt then 8 else 4

/-- `entries[i]`, a `uint32_t` in `rsdt_t` and in `xsdt_t`. -/
def rootEntry (m : Mem) (t : Roots) (i : ℕ) : ℕ := load m 4 (t.table + 36 + 4 * i)

/-- The loop of `_acpi_find_sdt` with `k` iterations left. -/
def findLoop (fuel : ℕ) (m : Mem) (t : Roots) (sig : ℕ → UInt8) : ℕ → ℕ → Except Halt ℕ
  | 0, _ => .error (.panic .sdtNotFound)
  | k + 1, i => do
    let curEntry := rootEntry m t i
    if ← acpiVerifySdt fuel m curEntry sig then return physToHigherHalfData curEntry
    else findLoop fuel m t sig k (i + 1)

/-- `_acpi_find_sdt`. -/
def acpiFindSdt (fuel : ℕ) (m : Mem) (t : Roots) (sig : ℕ → UInt8) : Except Halt ℕ :=
  findLoop fuel m t sig (entryCount m t) 0

/-! ### The root pointer -/

/-- The loop of `_acpi_rsdp_validate` over the first `n` bytes. -/
def rsdpSum (m : Mem) (rsdp : ℕ) : ℕ → UInt8
  | 0 => 0
  | n + 1 => rsdpSum m rsdp n + m (rsdp + n)

/-- `_acpi_rsdp_validate`. -/
def acpiRsdpValidate (m : Mem) (rsdp : ℕ) : Except Halt Unit :=
  if rsdpSum m rsdp 20 = 0 then .ok () else .error (.panic (.rsdpChecksum (rsdpSum m rsdp 20)))

/-- `_acpi_rsdp_init`: `has_xsdt`, from the revision at offset 15 and `xsdt_addr` at offset 24. -/
def acpiRsdpInit (m : Mem) (rsdp : ℕ) : Except Halt Bool := do
  acpiRsdpValidate m rsdp
  return 2 ≤ (m (rsdp + 15)).toNat ∧ load64 m (rsdp + 24) ≠ 0

/-- `acpi_init` up to the MADT; `rsdt_addr` is at offset 16. -/
def acpiInit (fuel : ℕ) (m : Mem) (rsdp : ℕ) (xsdtSig rsdtSig : ℕ → UInt8) : Except Halt Roots := do
  let hasXsdt ← acpiRsdpInit m rsdp
  let t : Roots := ⟨load m 4 (rsdp + 16), load64 m (rsdp + 24), hasXsdt⟩
  if ← acpiVerifySdt fuel m t.table (if hasXsdt then xsdtSig else rsdtSig) then return t
  else .error (.panic .rootNotFound)

/-! ### Signatures and checksums -/

theorem memcmp_eq_zero_iff {p1 p2 : ℕ → UInt8} : ∀ {n i : ℕ},
    memcmp p1 p2 n i = 0 ↔ ∀ j, i ≤ j → j < i + n → p1 j = p2 j
  | 0, i => by
    refine ⟨fun _ j h1 h2 => by omega, fun _ => rfl⟩
  | n + 1, i => by
    rw [memcmp]
    by_cases h : p1 i = p2 i
    · rw [if_neg (not_not.mpr h), memcmp_eq_zero_iff]
      constructor
      · intro hj j h1 h2
        rcases Nat.eq_or_lt_of_le h1 with rfl | h1
        · exact h
        · exact hj j h1 (by omega)
      · exact fun hj j h1 h2 => hj j (by omega) (by omega)
    · rw [if_pos h]
      refine ⟨fun h0 => absurd ?_ h, fun hj => absurd (hj i le_rfl (by omega)) h⟩
      exact UInt8.toNat_inj.mp (by omega)

/-- The sum of the `n` bytes from `i` on. -/
def byteSum (m : Mem) (sdt : ℕ) : ℕ → ℕ → UInt8
  | 0, _ => 0
  | n + 1, i => m (sdt + i) + byteSum m sdt n (i + 1)

theorem checksumLoop_eq {m : Mem} {sdt : ℕ} (hl : sdtLen m sdt < 256) : ∀ {k fuel : ℕ} {i cs : UInt8},
    i.toNat + k = sdtLen m sdt → k < fuel →
    checksumLoop m sdt fuel i cs = some (cs + byteSum m sdt k i.toNat)
  | 0, fuel + 1, i, cs, h, _ => by
    rw [checksumLoop, if_neg (by omega), byteSum]
    simp
  | k + 1, fuel + 1, i, cs, h, hf => by
    have hi : (i + 1).toNat = i.toNat + 1 := by
      rw [UInt8.toNat_add]
      exact Nat.mod_eq_of_lt (by show i.toNat + 1 < 256; omega)
    rw [checksumLoop, if_pos (by omega), checksumLoop_eq hl (k := k) (by omega) (by omega), hi, byteSum,
      UInt8.add_assoc]

theorem checksumLoop_none {m : Mem} {sdt : ℕ} (hl : 256 ≤ sdtLen m sdt) : ∀ (fuel : ℕ) (i cs : UInt8),
    checksumLoop m sdt fuel i cs = none
  | 0, _, _ => rfl
  | fuel + 1, i, cs => by
    rw [checksumLoop, if_pos (lt_of_lt_of_le i.toNat_lt hl), checksumLoop_none hl]

theorem checksumLoop_short {m : Mem} {sdt : ℕ} (hl : sdtLen m sdt < 256) :
    ∀ {k fuel : ℕ} {i cs : UInt8}, i.toNat + k = sdtLen m sdt → fuel ≤ k →
    checksumLoop m sdt fuel i cs = none
  | _, 0, _, _, _, _ => rfl
  | k + 1, fuel + 1, i, cs, h, hf => by
    have hi : (i + 1).toNat = i.toNat + 1 := by
      rw [UInt8.toNat_add]
      exact Nat.mod_eq_of_lt (by show i.toNat + 1 < 256; omega)
    rw [checksumLoop, if_pos (by omega), checksumLoop_short hl (k := k) (by omega) (by omega)]

/-- **The verdict on a checksum**, once there is fuel for 256 bytes. -/
theorem acpiVerifySdtChecksum_eq {fuel : ℕ} (hf : 256 ≤ fuel) (m : Mem) (sdt : ℕ) :
    acpiVerifySdtChecksum fuel m sdt =
      if 256 ≤ sdtLen m sdt then .error .outOfFuel
      else if byteSum m sdt (sdtLen m sdt) 0 = 0 then .ok true
      else .error (.panic (.invalidChecksum (byteSum m sdt (sdtLen m sdt) 0))) := by
  unfold acpiVerifySdtChecksum
  by_cases hl : 256 ≤ sdtLen m sdt
  · rw [checksumLoop_none hl, if_pos hl]
  · have h0 : (0 : UInt8).toNat = 0 := rfl
    rw [if_neg hl, checksumLoop_eq (by omega) (show (0 : UInt8).toNat + sdtLen m sdt = _ by omega)
      (by omega), h0, UInt8.zero_add]

end FusionCore.Acpi.Sdt
