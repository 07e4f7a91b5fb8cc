import FusionCore.Acpi.AcpiInit
import FusionCore.Dd.ApicInit

/-! # The entries the APIC driver reads (`acpi/tbl/madt.h`, `dd/apic/apic.c`)

The driver reads the fields of the entries in place, through the arrays that `acpi_init` fills.
`Item` is an entry with its fields, laid out as `madt.h` has them; `lists_of_firmware`: for every
list of items a firmware encodes, the driver sees its I/O APICs and its overrides, in their order. -/

namespace FusionCore.Dd.ApicMadt

open FusionCore.Lib.ByteMem FusionCore.Mm.Defs
open FusionCore.Acpi.Sdt FusionCore.Acpi.SdtSpec FusionCore.Acpi.Madt FusionCore.Acpi.MadtSpec
open FusionCore.Acpi.MadtDecode FusionCore.Acpi.AcpiInit FusionCore.Dd.Apic FusionCore.Dd.ApicInit

/-! ### Reading -/

/-- The fields of a `madt_iso_t` that the driver reads. -/
def isoAt (m : Mem) (p : ℕ) : MadtIso :=
  ⟨BitVec.ofNat 8 (load m 1 (physOf p + 3)), BitVec.ofNat 32 (load m 4 (physOf p + 4)),
    BitVec.ofNat 16 (load m 2 (physOf p + 8))⟩

/-- Those of a `madt_ioapic_t`. -/
def ioapicAt (m : Mem) (p : ℕ) : MadtIoapic :=
  ⟨BitVec.ofNat 32 (load m 4 (physOf p + 4)), BitVec.ofNat 32 (load m 4 (physOf p + 8))⟩

/-- The pointers of an array up to its counter. -/
def pointers (a : PtrArray) : List ℕ := (List.range a.count).map a.slots

/-- The overrides behind `madt_isos`. -/
def isosOf (m : Mem) (s : Arrays) : List MadtIso := (pointers (madtIsos s)).map (isoAt m)

/-- The I/O APICs behind `madt_ioapics`. -/
def ioapicsOf (m : Mem) (s : Arrays) : List MadtIoapic := (pointers (madtIoapics s)).map (ioapicAt m)

/-! ### Writing -/

/-- The low `w` bytes of `v`, low byte first. -/
def bytesOf (w v : ℕ) : List UInt8 := (List.range w).map fun i => UInt8.ofNat (v / 256 ^ i)

@[simp] theorem length_bytesOf (w v : ℕ) : (bytesOf w v).length = w := by
  rw [bytesOf, List.length_map, List.length_range]

/-- An entry of a MADT: `madt_lapic_t`, `madt_ioapic_t`, `madt_iso_t`, `madt_lapic_nmi_t`, or one of
a type for which there is no array. -/
inductive Item
  | lapic (procId apicId : UInt8) (flags : BitVec 32)
  | ioapic (id reserved : UInt8) (x : MadtIoapic)
  | iso (busSrc : UInt8) (x : MadtIso)
  | lapicNmi (procId : UInt8) (flags : BitVec 16) (lint : UInt8)
  | other (e : Entry) (h : kindOf e.type = none)

/-- The bytes of an item, behind its header. -/
def Item.entry : Item → Entry
  | .lapic procId apicId flags => ⟨0, [procId, apicId] ++ bytesOf 4 flags.toNat, by simp⟩
  | .ioapic id reserved x =>
    ⟨1, [id, reserved] ++ (bytesOf 4 x.ioapicAddr.toNat ++ bytesOf 4 x.gsiBase.toNat), by simp⟩
  | .iso busSrc x =>
    ⟨2, [busSrc] ++ (bytesOf 1 x.irqSrc.toNat ++ (bytesOf 4 x.gsi.toNat ++ bytesOf 2 x.flags.toNat)),
      by simp⟩
  | .lapicNmi procId flags lint => ⟨4, [procId] ++ (bytesOf 2 flags.toNat ++ [lint]), by simp⟩
  | .other e _ => e

/-- An override. -/
def Item.iso? : Item → Option MadtIso
  | .iso _ x => some x
  | _ => none

/-- An I/O APIC. -/
def Item.ioapic? : Item → Option MadtIoapic
  | .ioapic _ _ x => some x
  | _ => none

/-! ### An entry is read back -/

section Fields
variable {m : Mem} {a q w v : ℕ} {post : List UInt8}

theorem load_of_at (h : At m a (bytesOf w v ++ post)) : load m w a = v % 256 ^ w := by
  refine load_eq_mod fun i hi => ?_
  have hlen : i < (bytesOf w v).length := by rwa [length_bytesOf]
  rw [h i (by rw [List.length_append]; omega), List.getElem_append_left hlen]
  simp [bytesOf]

theorem at_after (h : At m a (bytesOf w v ++ post)) : At m (a + w) post := by
  have h' := h.append.2
  rwa [length_bytesOf] at h'

theorem ofNat_mod {n : ℕ} (x : BitVec n) (hw : 256 ^ w = 2 ^ n) :
    BitVec.ofNat n (x.toNat % 256 ^ w) = x := by
  refine BitVec.eq_of_toNat_eq ?_
  rw [BitVec.toNat_ofNat, hw, Nat.mod_mod, Nat.mod_eq_of_lt x.isLt]

theorem isoAt_iso (busSrc : UInt8) (x : MadtIso) (hq : q < 2 ^ 47)
    (h : At m q (Item.iso busSrc x).entry.bytes) : isoAt m (ptr q) = x := by
  have h0 : At m q ([2, UInt8.ofNat (Item.iso busSrc x).entry.size, busSrc] ++
      (bytesOf 1 x.irqSrc.toNat ++
      (bytesOf 4 x.gsi.toNat ++ (bytesOf 2 x.flags.toNat ++ [])))) := by
    rw [List.append_nil]
    exact h
  have h3 : At m (q + 3) _ := h0.append.2
  have h4 := at_after h3
  have h8 := at_after h4
  rw [isoAt, physOf_ptr hq, load_of_at h3, load_of_at h4, load_of_at h8, ofNat_mod _ (by norm_num),
    ofNat_mod _ (by norm_num), ofNat_mod _ (by norm_num)]

theorem ioapicAt_ioapic (id reserved : UInt8) (x : MadtIoapic) (hq : q < 2 ^ 47)
    (h : At m q (Item.ioapic id reserved x).entry.bytes) : ioapicAt m (ptr q) = x := by
  have h0 : At m q ([1, UInt8.ofNat (Item.ioapic id reserved x).entry.size, id, reserved] ++
      (bytesOf 4 x.ioapicAddr.toNat ++ (bytesOf 4 x.gsiBase.toNat ++ []))) := by
    rw [List.append_nil]
    exact h
  have h4 : At m (q + 4) _ := h0.append.2
  have h8 := at_after h4
  rw [ioapicAt, physOf_ptr hq, load_of_at h4, load_of_at h8, ofNat_mod _ (by norm_num),
    ofNat_mod _ (by norm_num)]

end Fields

/-! ### The lists -/

section Lists
variable {m : Mem} {a : ℕ} {items : List Item} {α : Type} {code : UInt8} {read : ℕ → α}
  {get? : Item → Option α}

theorem pointers_of_holds {arr : PtrArray} {l : List ℕ} (h : Holds arr l) : pointers arr = l := by
  refine List.ext_getElem ?_ fun i h1 h2 => ?_
  · rw [pointers, List.length_map, List.length_range, h.count]
  · simp only [pointers, List.getElem_map, List.getElem_range]
    exact h.slots i h2

/-- **Reading through the pointers to the entries of a type** gives the items of this type, when one
entry is read back. -/
theorem read_addrs (hin : ∀ i : Item, ∀ q < 2 ^ 47, At m q i.entry.bytes → i.entry.type = code →
      get? i = some (read (ptr q)))
    (hout : ∀ i : Item, i.entry.type ≠ code → get? i = none)
    (h : At m a (encode (items.map Item.entry)))
      (ha : a + (encode (items.map Item.entry)).length ≤ 2 ^ 47) :
    (addrs code a (items.map Item.entry)).map read = items.filterMap get? := by
  induction items generalizing a with
  | nil => rfl
  | cons i items ih =>
    have hsplit : encode ((i :: items).map Item.entry) =
        i.entry.bytes ++ encode (items.map Item.entry) := rfl
    rw [hsplit] at h ha
    rw [List.length_append, length_bytes] at ha
    obtain ⟨h1, h2⟩ := h.append
    rw [length_bytes] at h2
    have hsize : 0 < i.entry.size := by
      unfold Entry.size
      omega
    have hrest := ih h2 (by omega)
    rw [List.map_cons, addrs, located]
    by_cases hc : i.entry.type = code
    · rw [List.filter_cons, if_pos (decide_eq_true hc), List.map_cons, List.map_cons,
        List.filterMap_cons_some (hin i a (by omega) h1 hc)]
      exact congrArg _ hrest
    · rw [List.filter_cons, if_neg (by simpa using hc), List.filterMap_cons_none (hout i hc)]
      exact hrest

end Lists

/-- **What the driver sees**: for every list of items, its overrides and its I/O APICs, in their order. -/
theorem lists_of_firmware {m : Mem} {stivale2Struct rsdpTag t : ℕ} {ts : List ℕ}
    {items : List Item} {s : Arrays}
    (hF : Firmware m stivale2Struct rsdpTag ts t (items.map Item.entry)) (hs : ∀ k, (s k).count = 0)
    (hr : sdtLen m (rootsOf m rsdpTag).table ≤ 255) (hfound : Found m rsdpTag ts t)
    (ht : 44 + (encode (items.map Item.entry)).length ≤ 255) :
    ∃ fuel₀, ∀ fuel, fuel₀ ≤ fuel → ∃ s',
      acpiInitAll fuel m stivale2Struct s = .ok (rootsOf m rsdpTag, ptr t, s') ∧
        isosOf m s' = items.filterMap Item.iso? ∧ ioapicsOf m s' = items.filterMap Item.ioapic? := by
  obtain ⟨fuel₀, h⟩ := acpiInitAll_short hF hs hr hfound ht
  have hlt := rootWords_lt hF.root t (List.mem_of_find?_eq_some hfound)
  refine ⟨fuel₀, fun fuel hfuel => ?_⟩
  obtain ⟨s', hrun, hdec⟩ := h fuel hfuel
  refine ⟨s', hrun, ?_, ?_⟩
  · rw [isosOf, pointers_of_holds hdec.isos]
    refine read_addrs (fun i q hq hi hc => ?_) (fun i hc => ?_) hF.madt.entries (by omega)
    · cases i with
      | iso busSrc x => rw [isoAt_iso busSrc x hq hi, Item.iso?]
      | other e he => exact absurd (he.symm.trans (congrArg kindOf hc)) (by decide)
      | lapic => exact absurd hc (show (0 : UInt8) ≠ 2 by decide)
      | ioapic => exact absurd hc (show (1 : UInt8) ≠ 2 by decide)
      | lapicNmi => exact absurd hc (show (4 : UInt8) ≠ 2 by decide)
    · cases i with
      | iso => exact absurd rfl hc
      | _ => rfl
  · rw [ioapicsOf, pointers_of_holds hdec.ioapics]
    refine read_addrs (fun i q hq hi hc => ?_) (fun i hc => ?_) hF.madt.entries (by omega)
    · cases i with
      | ioapic id reserved x => rw [ioapicAt_ioapic id reserved x hq hi, Item.ioapic?]
      | other e he => exact absurd (he.symm.trans (congrArg kindOf hc)) (by decide)
      | lapic => exact absurd hc (show (0 : UInt8) ≠ 1 by decide)
      | iso => exact absurd hc (show (2 : UInt8) ≠ 1 by decide)
      | lapicNmi => exact absurd hc (show (4 : UInt8) ≠ 1 by decide)
    · cases i with
      | ioapic => exact absurd rfl hc
      | _ => rfl

/-- Two processors, two I/O APICs and two overrides, with an entry of another type among them. -/
def pcItems : List Item :=
  [.lapic 0 0 1#32, .ioapic 1 0 ⟨0xFEC00000#32, 0#32⟩, .iso 0 ⟨0#8, 2#32, 0#16⟩,
    .other ⟨9, [0, 8, 2, 10, 0, 0], by decide⟩ rfl, .lapic 1 1 1#32, .ioapic 2 0 ⟨0xFEC10000#32, 24#32⟩,
    .iso 0 ⟨9#8, 9#32, 13#16⟩, .lapicNmi 0xFF 5#16 1]

theorem firmware_pc : Firmware (bootMem (pcItems.map Item.entry) 58) 0x8000 0x9100 [0x2000, 0x1000] 0x2000
    (pcItems.map Item.entry) where
  tagged := ⟨[0x9000, 0x9100],
    chain_two_tags (by decide +kernel) (by decide +kernel) (by decide +kernel), by decide +kernel⟩
  pointer := by decide +kernel
  signed := by decide +kernel
  sums := by decide +kernel
  root := EncodesXsdt.mk (by decide +kernel) (by decide +kernel)
  addr := by norm_num
  madt := ⟨by decide +kernel, by unfold At; decide +kernel⟩
  madtSums := by decide +kernel
  few := by unfold Few; decide +kernel

theorem lists_of_firmware_pc : ∃ fuel₀, ∀ fuel, fuel₀ ≤ fuel → ∃ s',
    acpiInitAll fuel (bootMem (pcItems.map Item.entry) 58) 0x8000 fresh =
      .ok (rootsOf (bootMem (pcItems.map Item.entry) 58) 0x9100, ptr 0x2000, s') ∧
    isosOf (bootMem (pcItems.map Item.entry) 58) s' = [⟨0#8, 2#32, 0#16⟩, ⟨9#8, 9#32, 13#16⟩] ∧
      ioapicsOf (bootMem (pcItems.map Item.entry) 58) s' =
        [⟨0xFEC00000#32, 0#32⟩, ⟨0xFEC10000#32, 24#32⟩] :=
  lists_of_firmware firmware_pc (fun _ => rfl) (by decide +kernel) (by unfold Found; decide +kernel)
    (by decide +kernel)

end FusionCore.Dd.ApicMadt
