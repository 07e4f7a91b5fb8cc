import FusionCore.Acpi.MadtDecode
import FusionCore.Boot.Tags

/-! # From the boot protocol to the MADT (`acpi_init` in `acpi/acpi.c`)

`acpi_init` takes the root pointer from the loader's tag, chooses and verifies a root table and looks
for the MADT in it. `Firmware` describes what a machine provides; `acpiInit_decodes_iff`: there the
arrays of the MADT are filled exactly if the root table and the MADT have at most 255 bytes each and
the search comes to the MADT. With longer tables `acpi_init` does not come to an end, and where the
search comes to no table it panics. -/

namespace FusionCore.Acpi.AcpiInit

open FusionCore.Lib.ByteMem FusionCore.Lib.NullChain FusionCore.Mm.Defs FusionCore.Boot.Tags
open FusionCore.Acpi.Sdt FusionCore.Acpi.SdtSpec FusionCore.Acpi.Madt FusionCore.Acpi.MadtSpec
open FusionCore.Acpi.MadtDecode

/-- `STIVALE2_STRUCT_TAG_RSDP_ID`. -/
def rsdpId : ℕ := 0x9e1786930a375e78

/-- `"XSDT"`. -/
def sigXsdt (i : ℕ) : UInt8 := [0x58, 0x53, 0x44, 0x54].getD i 0

/-- `"RSDT"`. -/
def sigRsdt (i : ℕ) : UInt8 := [0x52, 0x53, 0x44, 0x54].getD i 0

/-- `rsdp_tag->rsdp`; the tag is not compared with NULL. -/
def tagRsdp (m : Mem) (rsdpTag : ℕ) : ℕ := load64 m (physOf rsdpTag + 16)

/-- Where `acpi_init` does not return. -/
inductive Halt
  | root (h : Sdt.Halt)
  | madt (h : Madt.Halt)
  | outOfFuel
  deriving DecidableEq, Repr

/-- The call goes on for ever. -/
def Halt.Endless : Halt → Prop
  | .root h => h = .outOfFuel
  | .madt h => h = .outOfFuel ∨ h = .findSdt .outOfFuel
  | .outOfFuel => True

/-- `acpi_init`: the root tables, `madt` and the arrays. -/
def acpiInitAll (fuel : ℕ) (m : Mem) (stivale2Struct : ℕ) (s : Arrays) :
    Except Halt (Roots × ℕ × Arrays) := do
  let rsdpTag ← (stivale2GetTag fuel m stivale2Struct rsdpId).elim (.error .outOfFuel) .ok
  let roots ← (acpiInit fuel m (physOf (tagRsdp m rsdpTag)) sigXsdt sigRsdt).mapError .root
  let r ← (acpiMadtInit fuel m roots s).mapError .madt
  return (roots, r)

/-- The roots named by the root pointer at `rsdp`. -/
def rootsAt (m : Mem) (rsdp : ℕ) : Roots :=
  ⟨load m 4 (rsdp + 16), load64 m (rsdp + 24), 2 ≤ (m (rsdp + 15)).toNat ∧ load64 m (rsdp + 24) ≠ 0⟩

/-- The roots named by the loader's tag. -/
def rootsOf (m : Mem) (rsdpTag : ℕ) : Roots := rootsAt m (physOf (tagRsdp m rsdpTag))

/-- The signature of the root table. -/
def rootSig (roots : Roots) : ℕ → UInt8 := if roots.hasXsdt then sigXsdt else sigRsdt

/-- **What the machine provides**: among the tags one for the root pointer, whose bytes sum up to 0;
the root table with its signature, whose bytes do so too, and which lists the tables `ts`; and a MADT
at `t` with the entries `es`, whose bytes do so too, with at most 32 entries of each kind that is
recorded. -/
structure Firmware (m : Mem) (stivale2Struct rsdpTag : ℕ) (ts : List ℕ) (t : ℕ)
    (es : List Entry) : Prop where
  tagged : ∃ l, Chain (next m) (tags m stivale2Struct) l ∧
    l.find? (identifier m · = rsdpId) = some rsdpTag
  pointer : rsdpSum m (physOf (tagRsdp m rsdpTag)) 20 = 0
  signed : HasSig m (rootSig (rootsOf m rsdpTag)) (rootsOf m rsdpTag).table
  sums : byteSum m (rootsOf m rsdpTag).table (sdtLen m (rootsOf m rsdpTag).table) 0 = 0
  root : EncodesRoot m (rootsOf m rsdpTag) ts
  addr : t < 2 ^ 64
  madt : Encodes m t es
  madtSums : tableSum m t % 256 = 0
  few : Few es

/-- The search for the MADT, among the words of the root table, comes to `t`. -/
def Found (m : Mem) (rsdpTag : ℕ) (ts : List ℕ) (t : ℕ) : Prop :=
  (rootWords (rootsOf m rsdpTag) ts).find? (HasSig m sigApic ·) = some t

/-! ### Running it -/

section Bind
variable {ε α β : Type} {x : Except ε α} {f : α → Except ε β} {a : α} {e : ε}

theorem bind_of_ok (h : x = .ok a) : x >>= f = f a := by
  rw [h]
  rfl

theorem bind_of_error (h : x = .error e) : x >>= f = .error e := by
  rw [h]
  rfl

end Bind

section Root
variable {m : Mem} {rsdp sdt fuel : ℕ}

theorem acpiInit_eq (hsum : rsdpSum m rsdp 20 = 0)
    (hsig : HasSig m (rootSig (rootsAt m rsdp)) (rootsAt m rsdp).table) :
    acpiInit fuel m rsdp sigXsdt sigRsdt =
      acpiVerifySdtChecksum fuel m (rootsAt m rsdp).table >>= fun b =>
      if b then .ok (rootsAt m rsdp) else .error (.panic .rootNotFound) := by
  have hverify : acpiVerifySdt fuel m (rootsAt m rsdp).table (rootSig (rootsAt m rsdp)) =
      acpiVerifySdtChecksum fuel m (rootsAt m rsdp).table := by rw [acpiVerifySdt_eq, if_pos hsig]
  rw [← hverify, acpiInit, acpiRsdpInit, acpiRsdpValidate, if_pos hsum]
  rfl

theorem checksum_or (hz : byteSum m sdt (sdtLen m sdt) 0 = 0) (hl : sdtLen m sdt ≤ 255) (fuel : ℕ) :
    acpiVerifySdtChecksum fuel m sdt = .error .outOfFuel ∨
    acpiVerifySdtChecksum fuel m sdt = .ok true := by
  have h0 : (0 : UInt8).toNat + sdtLen m sdt = sdtLen m sdt := Nat.zero_add _
  rcases Nat.lt_or_ge (sdtLen m sdt) fuel with hf | hf
  · refine Or.inr ?_
    have hsum : (0 : UInt8) + byteSum m sdt (sdtLen m sdt) (0 : UInt8).toNat = 0 := by
      rw [UInt8.zero_add]
      exact hz
    rw [acpiVerifySdtChecksum, checksumLoop_eq (by omega) h0 hf, hsum]
    rfl
  · rw [acpiVerifySdtChecksum, checksumLoop_short (by omega) h0 hf]
    exact Or.inl rfl

end Root

section Run
variable {m : Mem} {stivale2Struct rsdpTag t fuel : ℕ} {ts : List ℕ} {es : List Entry} {s s' : Arrays}
  (hF : Firmware m stivale2Struct rsdpTag ts t es)
include hF

theorem getTag_or : (∃ n, ∀ fuel > n, stivale2GetTag fuel m stivale2Struct rsdpId = some rsdpTag) ∧
    ∀ fuel, stivale2GetTag fuel m stivale2Struct rsdpId = none ∨
      stivale2GetTag fuel m stivale2Struct rsdpId = some rsdpTag := by
  obtain ⟨l, hl, hfind⟩ := hF.tagged
  have hlong : ∀ fuel > l.length, stivale2GetTag fuel m stivale2Struct rsdpId = some rsdpTag :=
    fun fuel hf => by
    rw [stivale2GetTag, tagLoop_chain hl hf, hfind]
    rfl
  refine ⟨⟨l.length, hlong⟩, fun fuel => ?_⟩
  cases hget : stivale2GetTag fuel m stivale2Struct rsdpId with
  | none => exact Or.inl rfl
  | some b =>
    obtain ⟨l', h1, h2, h3⟩ := tagLoop_eq_some_iff.mp hget
    have hmore := tagLoop_eq_some_iff.mpr ⟨l', h1, Nat.lt_add_right (l.length + 1) h2, h3⟩
    refine Or.inr (hmore.symm.trans (hlong _ ?_))
    omega

theorem acpiInitAll_root (hget : stivale2GetTag fuel m stivale2Struct rsdpId = some rsdpTag)
    (hc : acpiVerifySdtChecksum fuel m (rootsOf m rsdpTag).table = .error .outOfFuel) :
    acpiInitAll fuel m stivale2Struct s = .error (.root .outOfFuel) := by
  have htag : (stivale2GetTag fuel m stivale2Struct rsdpId).elim (.error Halt.outOfFuel) Except.ok =
      .ok rsdpTag := by rw [hget, Option.elim_some]
  have hinit : acpiInit fuel m (physOf (tagRsdp m rsdpTag)) sigXsdt sigRsdt = .error .outOfFuel :=
    (acpiInit_eq hF.pointer hF.signed).trans (bind_of_error hc)
  rw [acpiInitAll, bind_of_ok htag, bind_of_error (by rw [hinit]; rfl)]

theorem acpiInitAll_madt (hget : stivale2GetTag fuel m stivale2Struct rsdpId = some rsdpTag)
    (hc : acpiVerifySdtChecksum fuel m (rootsOf m rsdpTag).table = .ok true) :
    acpiInitAll fuel m stivale2Struct s =
      (acpiMadtInit fuel m (rootsOf m rsdpTag) s).mapError .madt >>= fun r =>
        pure (rootsOf m rsdpTag, r) := by
  have htag : (stivale2GetTag fuel m stivale2Struct rsdpId).elim (.error Halt.outOfFuel) Except.ok =
      .ok rsdpTag := by rw [hget, Option.elim_some]
  have hinit : acpiInit fuel m (physOf (tagRsdp m rsdpTag)) sigXsdt sigRsdt =
      .ok (rootsOf m rsdpTag) := by
    refine (acpiInit_eq hF.pointer hF.signed).trans ((bind_of_ok hc).trans ?_)
    rfl
  rw [acpiInitAll, bind_of_ok htag, bind_of_ok (by rw [hinit]; rfl)]

theorem acpiInitAll_short (hs : ∀ k, (s k).count = 0) (hr : sdtLen m (rootsOf m rsdpTag).table ≤ 255)
    (hfound : Found m rsdpTag ts t) (ht : 44 + (encode es).length ≤ 255) :
    ∃ fuel₀, ∀ fuel, fuel₀ ≤ fuel → ∃ s',
      acpiInitAll fuel m stivale2Struct s = .ok (rootsOf m rsdpTag, physToHigherHalfData t, s') ∧
        Decodes t es s' := by
  obtain ⟨⟨n, hn⟩, -⟩ := getTag_or hF
  have hlt := rootWords_lt hF.root t (List.mem_of_find?_eq_some hfound)
  refine ⟨n + 257 + es.length, fun fuel hfuel => ?_⟩
  obtain ⟨s', hloop, hdec⟩ := decode_loop hlt hF.madt hF.few hs (show es.length < fuel by omega)
  have hc : acpiVerifySdtChecksum fuel m (rootsOf m rsdpTag).table = .ok true := by
    rw [acpiVerifySdtChecksum_eq (show 256 ≤ fuel by omega), if_neg (by omega), if_pos hF.sums]
  have hmadt := init_short hF.root hfound hF.madtSums (by rw [hF.madt.len]; exact ht)
    (show 256 ≤ fuel by omega) hloop
  refine ⟨s', ?_, hdec⟩
  rw [acpiInitAll_madt hF (hn fuel (by omega)) hc, bind_of_ok (by rw [hmadt]; rfl)]
  rfl

theorem acpiInitAll_or (fuel : ℕ) : (∃ e, acpiInitAll fuel m stivale2Struct s = .error e ∧ e.Endless) ∨
    (sdtLen m (rootsOf m rsdpTag).table ≤ 255 ∧ acpiInitAll fuel m stivale2Struct s =
      (acpiMadtInit fuel m (rootsOf m rsdpTag) s).mapError .madt >>= fun r =>
        pure (rootsOf m rsdpTag, r)) := by
  rcases (getTag_or hF).2 fuel with hget | hget
  · refine Or.inl ⟨.outOfFuel, ?_, trivial⟩
    rw [acpiInitAll, bind_of_error (by rw [hget]; rfl)]
  · rcases Nat.lt_or_ge 255 (sdtLen m (rootsOf m rsdpTag).table) with hr | hr
    · exact Or.inl ⟨.root .outOfFuel, acpiInitAll_root hF hget ((not_decides_of_long hr).1 fuel), rfl⟩
    · rcases checksum_or hF.sums hr fuel with hc | hc
      · exact Or.inl ⟨.root .outOfFuel, acpiInitAll_root hF hget hc, rfl⟩
      · exact Or.inr ⟨hr, acpiInitAll_madt hF hget hc⟩

theorem acpiInitAll_longRoot (hr : 255 < sdtLen m (rootsOf m rsdpTag).table) (fuel : ℕ) :
    ∃ e, acpiInitAll fuel m stivale2Struct s = .error e ∧ e.Endless := by
  rcases acpiInitAll_or hF fuel with h | ⟨h, -⟩
  · exact h
  · omega

theorem acpiInitAll_longMadt (hfound : Found m rsdpTag ts t)
    (ht : 255 < 44 + (encode es).length) (fuel : ℕ) :
    ∃ e, acpiInitAll fuel m stivale2Struct s = .error e ∧ e.Endless := by
  rcases acpiInitAll_or hF fuel with h | ⟨-, h⟩
  · exact h
  · have hlong : 256 ≤ sdtLen m t := by
      rw [hF.madt.len]
      omega
    have hmadt : acpiMadtInit fuel m (rootsOf m rsdpTag) s = .error (.findSdt .outOfFuel) := by
      rw [acpiMadtInit, find_long hF.root hfound fuel hlong, initFrom]
    exact ⟨.madt (.findSdt .outOfFuel), by rw [h, bind_of_error (by rw [hmadt]; rfl)], Or.inr rfl⟩

theorem acpiInitAll_none (hr : sdtLen m (rootsOf m rsdpTag).table ≤ 255)
    (hnone : (rootWords (rootsOf m rsdpTag) ts).find? (HasSig m sigApic ·) = none) :
    ∃ fuel₀, ∀ fuel, fuel₀ ≤ fuel →
      acpiInitAll fuel m stivale2Struct s = .error (.madt (.findSdt (.panic .sdtNotFound))) := by
  obtain ⟨⟨n, hn⟩, -⟩ := getTag_or hF
  refine ⟨n + 257, fun fuel hfuel => ?_⟩
  have hc : acpiVerifySdtChecksum fuel m (rootsOf m rsdpTag).table = .ok true := by
    rw [acpiVerifySdtChecksum_eq (show 256 ≤ fuel by omega), if_neg (by omega), if_pos hF.sums]
  have hmadt : acpiMadtInit fuel m (rootsOf m rsdpTag) s = .error (.findSdt (.panic .sdtNotFound)) := by
    rw [acpiMadtInit, find_none hF.root hnone, initFrom]
  rw [acpiInitAll_madt hF (hn fuel (by omega)) hc, bind_of_error (by rw [hmadt]; rfl)]

/-- **`acpi_init`**: the arrays are filled exactly if the root table and the MADT are short and the
search comes to the MADT. With a long root table, or a long MADT that the search comes to, the call
does not come to an end; and it panics where the search comes to no table. -/
theorem acpiInit_decodes_iff (hs : ∀ k, (s k).count = 0) :
    ((∃ fuel₀, ∀ fuel, fuel₀ ≤ fuel → ∃ s',
      acpiInitAll fuel m stivale2Struct s = .ok (rootsOf m rsdpTag, physToHigherHalfData t, s') ∧
        Decodes t es s') ↔
      sdtLen m (rootsOf m rsdpTag).table ≤ 255 ∧ Found m rsdpTag ts t ∧ 44 + (encode es).length ≤ 255) ∧
    (255 < sdtLen m (rootsOf m rsdpTag).table ∨ Found m rsdpTag ts t ∧ 255 < 44 + (encode es).length →
      ∀ fuel, ∃ e, acpiInitAll fuel m stivale2Struct s = .error e ∧ e.Endless) ∧
    (sdtLen m (rootsOf m rsdpTag).table ≤ 255 →
      (rootWords (rootsOf m rsdpTag) ts).find? (HasSig m sigApic ·) = none →
      ∃ fuel₀, ∀ fuel, fuel₀ ≤ fuel →
        acpiInitAll fuel m stivale2Struct s = .error (.madt (.findSdt (.panic .sdtNotFound)))) := by
  refine ⟨⟨?_, fun h => acpiInitAll_short hF hs h.1 h.2.1 h.2.2⟩, ?_, acpiInitAll_none hF⟩
  · rintro ⟨fuel₀, h⟩
    obtain ⟨s', hret, -⟩ := h fuel₀ le_rfl
    rcases acpiInitAll_or hF fuel₀ with ⟨e, herr, -⟩ | ⟨hr, hrun⟩
    · rw [hret] at herr
      cases herr
    · rw [hret] at hrun
      cases hmadt : acpiMadtInit fuel₀ m (rootsOf m rsdpTag) s with
      | error e =>
        rw [hmadt] at hrun
        cases hrun
      | ok r =>
        rw [hmadt, Except.mapError, bind_of_ok rfl] at hrun
        simp only [pure, Except.pure, Except.ok.injEq, Prod.mk.injEq, true_and] at hrun
        rw [← hrun] at hmadt
        obtain ⟨hfound, -, hlen⟩ := found_of_init hF.root hF.addr hmadt
        exact ⟨hr, hfound, by rw [← hF.madt.len]; exact hlen⟩
  · rintro (hr | ⟨hfound, ht⟩)
    · exact acpiInitAll_longRoot hF hr
    · exact acpiInitAll_longMadt hF hfound ht

end Run

/-- A loader with two tags, the second one for a root pointer at `0xA000` that names an XSDT, which
lists the MADT with the entries `es` and the checksum byte `cs` before another table. -/
def bootMem (es : List Entry) (cs : UInt8) : Mem :=
  [(8, 0x8080, 0x9000), (8, 0x9000, 0x1234), (8, 0x9008, 0x9100), (8, 0x9100, rsdpId),
    (8, 0x9110, 0xA000), (1, 0xA008, 190), (1, 0xA00F, 2), (4, 0xA010, 0x4000), (8, 0xA018, 0x3000),
    (4, 0x3000, 0x54445358), (1, 0x3009, 89)].foldl (fun m (w, a, v) => store m w a v) (madtMem es cs)

theorem chain_two_tags {m : Mem} (h1 : tags m 0x8000 = 0x9000) (h2 : next m 0x9000 = 0x9100)
    (h3 : next m 0x9100 = 0) : Chain (next m) (tags m 0x8000) [0x9000, 0x9100] := by
  rw [h1]
  refine .cons (by decide) ?_
  rw [h2]
  refine .cons (by decide) ?_
  rw [h3]
  exact .nil

theorem firmware_bootMem : Firmware (bootMem mixedEntries 84) 0x8000 0x9100 [0x2000, 0x1000] 0x2000
    mixedEntries where
  tagged := ⟨[0x9000, 0x9100],
    chain_two_tags (by decide +kernel) (by decide +kernel) (by decide +kernel), by decide +kernel⟩
  pointer := by decide +kernel
  signed := by decide +kernel
  sums := by decide +kernel
  root := EncodesXsdt.mk (by decide +kernel) (by decide +kernel)
  addr := by norm_num
  madt := ⟨by decide +kernel, by unfold At; decide +kernel⟩
  madtSums := by decide +kernel
  few := by unfold Few; decide +kernel

theorem acpiInit_decodes_iff_mixed : ∃ fuel₀, ∀ fuel, fuel₀ ≤ fuel → ∃ s',
    acpiInitAll fuel (bootMem mixedEntries 84) 0x8000 fresh =
      .ok (rootsOf (bootMem mixedEntries 84) 0x9100, physToHigherHalfData 0x2000, s') ∧
        Decodes 0x2000 mixedEntries s' :=
  (acpiInit_decodes_iff firmware_bootMem fun _ => rfl).1.mpr
    ⟨by decide +kernel, by unfold Found; decide +kernel, by decide +kernel⟩

end FusionCore.Acpi.AcpiInit
