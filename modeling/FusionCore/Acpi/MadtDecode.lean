import FusionCore.Acpi.MadtSpec

/-! # Decoding an encoded MADT

For a list of entries, each with a type and a payload, encoded one after the other, the loop of
`_acpi_madt_init` leaves in each array the addresses of the entries of its type, in the order of the list
(`decode_loop`). The table is found first: `_acpi_find_sdt` reads the entries of an XSDT as 32-bit
words and verifies the checksum of the table it comes to, which ends only for tables of at most 255
bytes. So `_acpi_madt_init` decodes exactly the tables that are the first of these words with the
signature, whose checksums are right and which have at most 255 bytes (`madtInit_decodes_iff`). -/

namespace FusionCore.Acpi.MadtDecode

open FusionCore.Lib.ByteMem FusionCore.Lib.Walk FusionCore.Mm.Defs
open FusionCore.Acpi.Sdt FusionCore.Acpi.SdtSpec FusionCore.Acpi.Madt FusionCore.Acpi.MadtSpec

/-- An entry: its type and what comes after its header. -/
structure Entry where
  type : UInt8
  payload : List UInt8
  fits : payload.length ≤ 253

/-- The size of an entry, header included. -/
def Entry.size (e : Entry) : ℕ := 2 + e.payload.length

/-- The bytes of an entry. -/
def Entry.bytes (e : Entry) : List UInt8 := e.type :: UInt8.ofNat e.size :: e.payload

/-- The bytes of a list of entries. -/
def encode (es : List Entry) : List UInt8 := es.flatMap Entry.bytes

/-- The bytes `bs` are at `a`. -/
def At (m : Mem) (a : ℕ) (bs : List UInt8) : Prop := ∀ i (h : i < bs.length), m (a + i) = bs[i]

/-- The MADT at `t` has the entries `es`. -/
structure Encodes (m : Mem) (t : ℕ) (es : List Entry) : Prop where
  len : sdtLen m t = 44 + (encode es).length
  entries : At m (t + 44) (encode es)

/-- The entries with their addresses, from `a` on. -/
def located : ℕ → List Entry → List (ℕ × Entry)
  | _, [] => []
  | a, e :: es => (a, e) :: located (a + e.size) es

/-- The pointers to the entries of a type. -/
def addrs (type : UInt8) (a : ℕ) (es : List Entry) : List ℕ :=
  ((located a es).filter (·.2.type = type)).map fun p => physToHigherHalfData p.1

/-- The array holds exactly these pointers, within its 256 bytes. -/
structure Holds (a : PtrArray) (l : List ℕ) : Prop where
  count : a.count = l.length
  room : l.length ≤ 32
  slots : ∀ i (h : i < l.length), a.slots i = l[i]

/-- **What the arrays should hold** for the entries `es` of the MADT at `t`. -/
structure Decodes (t : ℕ) (es : List Entry) (s : Arrays) : Prop where
  lapics : Holds (madtLapics s) (addrs 0 (t + 44) es)
  ioapics : Holds (madtIoapics s) (addrs 1 (t + 44) es)
  isos : Holds (madtIsos s) (addrs 2 (t + 44) es)
  lapicNmis : Holds (madtLapicNmis s) (addrs 4 (t + 44) es)

/-- At most 32 entries of each type that is recorded. -/
def Few (es : List Entry) : Prop := ∀ type ∈ [0, 1, 2, 4], (es.filter (·.type = type)).length ≤ 32

/-! ### The walk over the encoded entries -/

section Encoded
variable {m : Mem} {a : ℕ} {es : List Entry}

theorem At.append {xs ys : List UInt8} (h : At m a (xs ++ ys)) : At m a xs ∧ At m (a + xs.length) ys := by
  constructor
  · intro i hi
    rw [h i (by rw [List.length_append]; omega), List.getElem_append_left hi]
  · intro i hi
    rw [Nat.add_assoc, h (xs.length + i) (by rw [List.length_append]; omega),
      List.getElem_append_right (by omega)]
    simp

theorem length_bytes (e : Entry) : e.bytes.length = e.size := by
  simp only [Entry.bytes, Entry.size, List.length_cons]
  omega

theorem At.header {e : Entry} (h : At m a e.bytes) : m a = e.type ∧ lenAt m a = e.size := by
  have hsize : e.size < 256 := by
    have := e.fits
    unfold Entry.size
    omega
  refine ⟨h 0 (by simp [Entry.bytes]), ?_⟩
  have h1 := h 1 (by simp [Entry.bytes])
  rw [lenAt, h1]
  show (UInt8.ofNat e.size).toNat = e.size
  rw [UInt8.toNat_ofNat']
  exact Nat.mod_eq_of_lt hsize

/-- **The walk** comes to exactly the encoded entries. -/
theorem walk_encode : ∀ {es : List Entry} {a fuel : ℕ}, At m a (encode es) → es.length < fuel →
    walk (lenAt m) (a + (encode es).length) fuel a = some ((located a es).map Prod.fst)
  | [], a, fuel + 1, _, _ => walk_of_le le_rfl
  | e :: es, a, fuel + 1, h, hf => by
    have hsplit : encode (e :: es) = e.bytes ++ encode es := rfl
    rw [hsplit] at h ⊢
    obtain ⟨h1, h2⟩ := h.append
    obtain ⟨-, hlen⟩ := h1.header
    rw [length_bytes] at h2
    have hpos : 0 < e.size := by unfold Entry.size; omega
    have hend : a + (e.bytes ++ encode es).length = a + e.size + (encode es).length := by
      rw [List.length_append, length_bytes, Nat.add_assoc]
    rw [hend, walk_of_lt (by omega), hlen, walk_encode h2 (by simpa using hf)]
    rfl

theorem type_located : ∀ {es : List Entry} {a : ℕ}, At m a (encode es) →
    ∀ p ∈ located a es, m p.1 = p.2.type
  | e :: es, a, h, p, hp => by
    have hsplit : encode (e :: es) = e.bytes ++ encode es := rfl
    rw [hsplit] at h
    obtain ⟨h1, h2⟩ := h.append
    rw [length_bytes] at h2
    rcases List.mem_cons.mp hp with rfl | hp
    · exact h1.header.1
    · exact type_located h2 p hp

theorem located_snd (a : ℕ) (es : List Entry) : (located a es).map Prod.snd = es := by
  induction es generalizing a with
  | nil => rfl
  | cons e es ih => rw [located, List.map_cons, ih]

end Encoded

/-! ### The arrays -/

theorem slots_foldl_push_lt : ∀ (l : List ℕ) (a : PtrArray) {j : ℕ}, j < a.count →
    (l.foldl PtrArray.push a).slots j = a.slots j
  | [], _, _, _ => rfl
  | p :: l, a, j, hj => by
    rw [List.foldl_cons, slots_foldl_push_lt l (a.push p) (Nat.lt_succ_of_lt hj)]
    exact Function.update_of_ne (by omega) _ _

theorem slots_foldl_push : ∀ (l : List ℕ) (a : PtrArray) (i : ℕ) (h : i < l.length),
    (l.foldl PtrArray.push a).slots (a.count + i) = l[i]
  | p :: l, a, 0, _ => by
    rw [List.foldl_cons, Nat.add_zero, slots_foldl_push_lt l (a.push p) (Nat.lt_succ_self _)]
    exact Function.update_self _ _ _
  | p :: l, a, i + 1, h => by
    have ih := slots_foldl_push l (a.push p) i (by simpa using h)
    rw [List.foldl_cons, List.getElem_cons_succ, ← ih]
    show _ = (l.foldl PtrArray.push (a.push p)).slots (a.count + 1 + i)
    rw [Nat.add_right_comm, Nat.add_assoc]

/-- The label of a kind. -/
def Kind.code : Kind → UInt8
  | .lapic => 0
  | .ioapic => 1
  | .iso => 2
  | .lapicNmi => 4

theorem kindOf_eq_iff (type : UInt8) (k : Kind) : kindOf type = some k ↔ type = Kind.code k := by
  unfold kindOf
  cases k <;> split_ifs <;> simp_all [Kind.code]

section Loop
variable {m : Mem} {t : ℕ} {es : List Entry} (ht : t < 2 ^ 32) (he : Encodes m t es) {s : Arrays}
include ht he

theorem holds_recordAll (hf : Few es) (hs : ∀ k, (s k).count = 0) (k : Kind) :
    Holds (recordAll m ((located (t + 44) es).map Prod.fst) s k) (addrs (Kind.code k) (t + 44) es) := by
  have hlen := sdtLen_lt m t
  have hw := walk_encode he.entries (Nat.lt_succ_self es.length)
  have hps : ∀ q ∈ (located (t + 44) es).map Prod.fst, q < 2 ^ 47 := by
    intro q hq
    have := ((mem_walk hw q).mp hq).2
    have := he.len
    omega
  have hlist : (((located (t + 44) es).map Prod.fst).filter (IsKind m k ·)).map ptr =
      addrs (Kind.code k) (t + 44) es := by
    rw [List.filter_map, List.map_map, addrs]
    refine congrArg (List.map _) (List.filter_congr fun p hp => ?_)
    simp only [Function.comp_apply, IsKind, type_located he.entries p hp, kindOf_eq_iff]
  have hcode : Kind.code k ∈ [0, 1, 2, 4] := by cases k <;> simp [Kind.code]
  have hroom : (addrs (Kind.code k) (t + 44) es).length ≤ 32 := by
    have hfew := hf _ hcode
    rw [← located_snd (t + 44) es, List.filter_map, List.length_map] at hfew
    rw [addrs, List.length_map]
    exact hfew
  rw [recordAll_eq s hps, hlist]
  refine ⟨by rw [count_foldl_push, hs, Nat.zero_add], hroom, fun i hi => ?_⟩
  have hslot := slots_foldl_push _ (s k) i hi
  rwa [hs, Nat.zero_add] at hslot

/-- **The loop decodes** every encoded list of entries. -/
theorem decode_loop (hf : Few es) (hs : ∀ k, (s k).count = 0) {fuel : ℕ} (hfuel : es.length < fuel) :
    ∃ s', entriesLoop fuel m (physToHigherHalfData t) s = some s' ∧ Decodes t es s' := by
  have hw := walk_encode he.entries hfuel
  have hend : t + 44 + (encode es).length = tableEnd m t := by rw [tableEnd, he.len, Nat.add_assoc]
  rw [hend] at hw
  refine ⟨recordAll m ((located (t + 44) es).map Prod.fst) s, ?_, ?_⟩
  · rw [show physToHigherHalfData t = ptr t from rfl, entriesLoop_eq ht, hw]
    rfl
  · have hholds := holds_recordAll ht he hf hs
    exact ⟨hholds .lapic, hholds .ioapic, hholds .iso, hholds .lapicNmi⟩

end Loop

/-! ### Finding the table -/

theorem find_of_init {m : Mem} {roots : Roots} {fuel madt : ℕ} {s s' : Arrays}
    (h : acpiMadtInit fuel m roots s = .ok (madt, s')) : acpiFindSdt fuel m roots sigApic = .ok madt := by
  rw [acpiMadtInit] at h
  cases hfind : acpiFindSdt fuel m roots sigApic with
  | error e =>
    rw [hfind, initFrom] at h
    cases h
  | ok v =>
    rw [hfind, initFrom] at h
    split_ifs at h
    cases hloop : entriesLoop fuel m v s with
    | none =>
      rw [hloop] at h
      cases h
    | some s'' =>
      rw [hloop] at h
      cases h
      rfl

section Find
variable {m : Mem} {roots : Roots} {ts : List ℕ} {t fuel : ℕ} {s : Arrays} (hr : EncodesRoot m roots ts)
include hr

theorem find_of_found (hfound : (rootWords roots ts).find? (HasSig m sigApic ·) = some t) :
    acpiFindSdt fuel m roots sigApic =
      acpiVerifySdtChecksum fuel m t >>= fun _ => .ok (physToHigherHalfData t) := by
  rw [acpiFindSdt_eq hr, hfound, Option.elim_some]

theorem find_long (hfound : (rootWords roots ts).find? (HasSig m sigApic ·) = some t) (fuel : ℕ)
    (hlen : 256 ≤ sdtLen m t) : acpiFindSdt fuel m roots sigApic = .error .outOfFuel := by
  rw [find_of_found hr hfound, (not_decides_of_long hlen).1]
  rfl

theorem find_short (hfound : (rootWords roots ts).find? (HasSig m sigApic ·) = some t)
    (hsum : tableSum m t % 256 = 0) (hlen : sdtLen m t ≤ 255) (hf : 256 ≤ fuel) :
    acpiFindSdt fuel m roots sigApic = .ok (physToHigherHalfData t) := by
  rw [find_of_found hr hfound, acpiVerifySdtChecksum_eq hf, if_neg (by omega),
    if_pos ((byteSum_eq_zero_iff m t).mpr hsum)]
  rfl

theorem find_none (hnone : (rootWords roots ts).find? (HasSig m sigApic ·) = none) (fuel : ℕ) :
    acpiFindSdt fuel m roots sigApic = .error (.panic .sdtNotFound) := by
  rw [acpiFindSdt_eq hr, hnone, Option.elim_none]

theorem found_of_find {v : ℕ} (h : acpiFindSdt fuel m roots sigApic = .ok v) :
    ∃ w < 2 ^ 32, (rootWords roots ts).find? (HasSig m sigApic ·) = some w ∧ tableSum m w % 256 = 0 ∧
      sdtLen m w ≤ 255 ∧ v = physToHigherHalfData w := by
  cases hfind : (rootWords roots ts).find? (HasSig m sigApic ·) with
  | none =>
    rw [find_none hr hfind] at h
    cases h
  | some w =>
    have hlt := rootWords_lt hr w (List.mem_of_find?_eq_some hfind)
    by_cases hlen : 256 ≤ sdtLen m w
    · rw [find_long hr hfind fuel hlen] at h
      cases h
    · rw [find_of_found hr hfind] at h
      cases hcs : acpiVerifySdtChecksum fuel m w with
      | error e =>
        rw [hcs] at h
        cases h
      | ok b =>
        rw [hcs] at h
        exact ⟨w, hlt, rfl, sum_of_checksum hcs, by omega, (Except.ok.inj h).symm⟩

theorem found_of_init (ht : t < 2 ^ 64) {s' : Arrays}
    (h : acpiMadtInit fuel m roots s = .ok (physToHigherHalfData t, s')) :
    (rootWords roots ts).find? (HasSig m sigApic ·) = some t ∧ tableSum m t % 256 = 0 ∧
    sdtLen m t ≤ 255 := by
  obtain ⟨w, hlt, hfound, hsum, hlen, heq⟩ := found_of_find hr (find_of_init h)
  have hwt : w = t := by
    unfold physToHigherHalfData higherHalfData at heq
    omega
  subst hwt
  exact ⟨hfound, hsum, hlen⟩

theorem init_short (hfound : (rootWords roots ts).find? (HasSig m sigApic ·) = some t)
    (hsum : tableSum m t % 256 = 0) (hlen : sdtLen m t ≤ 255) (hf : 256 ≤ fuel) {s' : Arrays}
    (hloop : entriesLoop fuel m (physToHigherHalfData t) s = some s') :
    acpiMadtInit fuel m roots s = .ok (physToHigherHalfData t, s') := by
  have hlt := rootWords_lt hr t (List.mem_of_find?_eq_some hfound)
  have hne : physToHigherHalfData t ≠ 0 := by
    unfold physToHigherHalfData higherHalfData
    omega
  rw [acpiMadtInit, find_short hr hfound hsum hlen hf, initFrom, if_neg hne, hloop]

end Find

/-- **Decoding**: `_acpi_madt_init` decodes exactly the tables that the search comes to, whose bytes
sum up to 0 and which have at most 255 bytes; its loop decodes all below 4 GiB. -/
theorem madtInit_decodes_iff {m : Mem} {roots : Roots} {ts : List ℕ} {t : ℕ} {es : List Entry}
    (hr : EncodesRoot m roots ts) (ht : t < 2 ^ 64) (he : Encodes m t es) (hf : Few es) {s : Arrays}
    (hs : ∀ k, (s k).count = 0) :
    ((∃ fuel₀, ∀ fuel, fuel₀ ≤ fuel → ∃ s',
      acpiMadtInit fuel m roots s = .ok (physToHigherHalfData t, s') ∧ Decodes t es s') ↔
        (rootWords roots ts).find? (HasSig m sigApic ·) = some t ∧ tableSum m t % 256 = 0 ∧
          44 + (encode es).length ≤ 255) ∧
    (t < 2 ^ 32 → ∃ fuel₀, ∀ fuel, fuel₀ ≤ fuel → ∃ s',
      entriesLoop fuel m (physToHigherHalfData t) s = some s' ∧ Decodes t es s') := by
  refine ⟨⟨?_, ?_⟩, fun hlt => ⟨es.length + 1, fun fuel hfuel => decode_loop hlt he hf hs hfuel⟩⟩
  · rintro ⟨fuel₀, h⟩
    obtain ⟨s', hret, -⟩ := h fuel₀ le_rfl
    rw [← he.len]
    exact found_of_init hr ht hret
  · rintro ⟨hfound, hsum, hlen⟩
    have hlt := rootWords_lt hr t (List.mem_of_find?_eq_some hfound)
    refine ⟨256 + es.length, fun fuel hfuel => ?_⟩
    obtain ⟨s', hloop, hdec⟩ := decode_loop hlt he hf hs (show es.length < fuel by omega)
    exact ⟨s', init_short hr hfound hsum (by rw [he.len]; exact hlen) (by omega) hloop, hdec⟩

/-- A memory with a MADT at `0x2000`, with the entries `es` and the checksum byte `cs`; an RSDT at
`0x4000` lists it, and an XSDT at `0x3000` lists it before another table. -/
def madtMem (es : List Entry) (cs : UInt8) : Mem := fun a =>
  if 0x202C ≤ a ∧ a < 0x202C + (encode es).length then (encode es).getD (a - 0x202C) 0
  else [(4, 0x2000, 0x43495041), (4, 0x2004, 44 + (encode es).length), (1, 0x2009, cs.toNat),
    (4, 0x3004, 52), (8, 0x3024, 0x2000), (8, 0x302C, 0x1000), (4, 0x4004, 40), (4, 0x4024, 0x2000)].foldl
      (fun m (w, a, v) => store m w a v) (fun _ => 0) a

theorem at_madtMem (es : List Entry) (cs : UInt8) : At (madtMem es cs) (0x2000 + 44) (encode es) := by
  intro i hi
  rw [madtMem, if_pos ⟨by omega, by omega⟩, show 0x2000 + 44 + i - 0x202C = i by omega,
    List.getD_eq_getElem?_getD, List.getElem?_eq_getElem hi, Option.getD_some]

/-- A local APIC. -/
def lapicEntry : Entry := ⟨0, [0, 0, 1, 0, 0, 0], by decide⟩

/-- Entries of all kinds, and one of a type that is not recorded whose payload looks like a header. -/
def mixedEntries : List Entry :=
  [lapicEntry, ⟨1, [1, 0, 0, 0, 0xC0, 0xFE, 0, 0, 0, 0], by decide⟩, ⟨9, [0, 8, 1, 12, 2, 10], by decide⟩,
    ⟨2, [0, 0, 2, 0, 0, 0, 0, 0], by decide⟩, ⟨0, [1, 1, 1, 0, 0, 0], by decide⟩,
    ⟨4, [0xFF, 5, 0, 1], by decide⟩]

theorem madtInit_decodes_iff_mixed : ∃ fuel₀, ∀ fuel, fuel₀ ≤ fuel → ∃ s',
    acpiMadtInit fuel (madtMem mixedEntries 84) ⟨0x4000, 0x3000, true⟩ fresh =
      .ok (physToHigherHalfData 0x2000, s') ∧ Decodes 0x2000 mixedEntries s' := by
  have hr : EncodesRoot (madtMem mixedEntries 84) ⟨0x4000, 0x3000, true⟩ [0x2000, 0x1000] :=
    EncodesXsdt.mk (by decide +kernel) (by decide +kernel)
  exact (madtInit_decodes_iff hr (by norm_num) ⟨by decide +kernel, at_madtMem _ _⟩
    (by unfold Few; decide +kernel) fun _ => rfl).1.mpr ⟨by decide +kernel, by decide +kernel, by decide⟩

/-- A MADT with 27 local APICs has 260 bytes, and `_acpi_madt_init` does not come back from the search for
it. -/
theorem many_lapics_never_decoded :
    EncodesRoot (madtMem (List.replicate 27 lapicEntry) 235) ⟨0x4000, 0, false⟩ [0x2000] ∧
    [0x2000].find? (HasSig (madtMem (List.replicate 27 lapicEntry) 235) sigApic ·) = some 0x2000 ∧
    tableSum (madtMem (List.replicate 27 lapicEntry) 235) 0x2000 % 256 = 0 ∧
    Encodes (madtMem (List.replicate 27 lapicEntry) 235) 0x2000 (List.replicate 27 lapicEntry) ∧
    Few (List.replicate 27 lapicEntry) ∧
    ∀ fuel, acpiMadtInit fuel (madtMem (List.replicate 27 lapicEntry) 235) ⟨0x4000, 0, false⟩ fresh =
      .error (.findSdt .outOfFuel) := by
  have hr : EncodesRoot (madtMem (List.replicate 27 lapicEntry) 235) ⟨0x4000, 0, false⟩ [0x2000] :=
    EncodesRsdt.mk (by decide +kernel) (by decide +kernel)
  have hfound : [0x2000].find? (HasSig (madtMem (List.replicate 27 lapicEntry) 235) sigApic ·) =
      some 0x2000 := by decide +kernel
  have hlen : sdtLen (madtMem (List.replicate 27 lapicEntry) 235) 0x2000 = 260 := by decide +kernel
  refine ⟨hr, hfound, ?_, ⟨hlen.trans (by decide +kernel), at_madtMem _ _⟩, by unfold Few; decide +kernel,
    fun fuel => ?_⟩
  · rw [tableSum, hlen]
    decide +kernel
  · rw [acpiMadtInit, find_long hr hfound fuel (by omega), initFrom]

end FusionCore.Acpi.MadtDecode
