import FusionCore.Dd.ApicSpec

/-! # Routing a global interrupt to its I/O APIC

An I/O APIC with the GSI base `b` and the maximum redirection entry `m` serves the interrupts from `b` to
`b + m`: `m` is the index of its last pin. `ioapic_i_from_gsi` stops before `b + m`. Over disjoint
ranges it is right for every interrupt but these last ones (`routes_iff`), for which it panics
(`owner_lastGsi`). -/

namespace FusionCore.Dd.ApicRoute

open FusionCore.Dd.Apic FusionCore.Dd.ApicSpec

/-- The maximum redirection entry: bits 16 to 23 of the version register. -/
def lastPin (v : BitVec 32) : ℕ := (v.extractLsb' 16 8).toNat

/-- The interrupt of the last pin of entry `i`. -/
def lastGsi (s : Ioapics) (i : ℕ) : ℕ := (s.entry i).gsiBase.toNat + lastPin (s.reg i 1#8)

/-- The interrupt is one of those of entry `i`. -/
def InRange (s : Ioapics) (gsi : BitVec 32) (i : ℕ) : Prop :=
  (s.entry i).gsiBase.toNat ≤ gsi.toNat ∧ gsi.toNat ≤ lastGsi s i

/-- The ranges do not wrap and no two of them meet. -/
structure DisjointRanges (s : Ioapics) : Prop where
  noWrap : ∀ i < s.madtIoapics.length, lastGsi s i < 2 ^ 32
  apart : ∀ i < s.madtIoapics.length, ∀ j < s.madtIoapics.length, i ≠ j →
    ∀ gsi, InRange s gsi i → ¬ InRange s gsi j

/-- **What the search is for**: the entry whose range the interrupt is in, and a panic if there is
none. -/
structure Routes (s : Ioapics) (gsi : BitVec 32) : Prop where
  finds : ∀ i < s.madtIoapics.length, InRange s gsi i → owner s gsi = some i
  panics : owner s gsi = none ↔ ∀ i < s.madtIoapics.length, ¬ InRange s gsi i

theorem maxRedirField_toNat (v : BitVec 32) : (maxRedirField v).toNat = lastPin v := by
  have hbits : maxRedirField v = (v.extractLsb' 16 8).setWidth 32 := by
    refine BitVec.eq_of_getLsbD_eq fun k hk => ?_
    have hmask : (0xFF0000#32).getLsbD (16 + k) = decide (k < 8) := by
      interval_cases k <;> rfl
    rw [maxRedirField, BitVec.getLsbD_ushiftRight, BitVec.getLsbD_and, hmask, BitVec.getLsbD_setWidth,
      BitVec.getLsbD_extractLsb']
    by_cases h8 : k < 8 <;> simp [h8, hk]
  rw [hbits, BitVec.toNat_setWidth, lastPin]
  have := (v.extractLsb' 16 8).isLt
  omega

section Search
variable {s : Ioapics} (hd : DisjointRanges s) (gsi : BitVec 32) {i : ℕ} (hi : i < s.madtIoapics.length)
include hd hi

theorem serves_iff : s.Serves gsi i ↔ InRange s gsi i ∧ gsi.toNat ≠ lastGsi s i := by
  have hend : ((s.entry i).gsiBase + maxRedirField (s.reg i 1#8)).toNat = lastGsi s i := by
    rw [BitVec.toNat_add, maxRedirField_toNat]
    exact Nat.mod_eq_of_lt (hd.noWrap i hi)
  rw [Ioapics.Serves, BitVec.le_def, BitVec.lt_def, hend, InRange]
  omega

theorem owner_eq_iff : owner s gsi = some i ↔ InRange s gsi i ∧ gsi.toNat ≠ lastGsi s i := by
  rw [← serves_iff hd gsi hi]
  refine ⟨fun h => (owner_spec h).2.1, fun hs => ?_⟩
  rcases (ioapicIFromGsi_spec s gsi).2 with ⟨j, h1, h2, -, h4⟩ | ⟨h1, -⟩
  · by_cases hij : i = j
    · rw [owner, h4, hij]
    · have hini := ((serves_iff hd gsi hi).mp hs).1
      exact absurd ((serves_iff hd gsi h1).mp h2).1 (hd.apart i hi j h1 hij gsi hini)
  · exact absurd hs (h1 i hi)

theorem owner_lastGsi (hg : gsi.toNat = lastGsi s i) : owner s gsi = none := by
  have hin : InRange s gsi i := ⟨by rw [hg]; exact Nat.le_add_right _ _, hg.le⟩
  by_contra hne
  obtain ⟨j, hj⟩ := Option.ne_none_iff_exists'.mp hne
  have hjl := (owner_spec hj).1
  obtain ⟨h1, h2⟩ := (owner_eq_iff hd gsi hjl).mp hj
  by_cases hij : i = j
  · exact h2 (hij ▸ hg)
  · exact hd.apart i hi j hjl hij gsi hin h1

end Search

/-- **The search is right exactly for the interrupts that are no I/O APIC's last.** -/
theorem routes_iff {s : Ioapics} (hd : DisjointRanges s) (gsi : BitVec 32) :
    Routes s gsi ↔ ∀ i < s.madtIoapics.length, gsi.toNat ≠ lastGsi s i := by
  constructor
  · intro h i hi hg
    have hin : InRange s gsi i := ⟨by rw [hg]; exact Nat.le_add_right _ _, hg.le⟩
    have hfound := h.finds i hi hin
    rw [owner_lastGsi hd gsi hi hg] at hfound
    exact absurd hfound (by simp)
  · intro h
    have hfinds : ∀ i < s.madtIoapics.length, InRange s gsi i → owner s gsi = some i :=
      fun i hi hin => (owner_eq_iff hd gsi hi).mpr ⟨hin, h i hi⟩
    refine ⟨hfinds, fun hn i hi hin => ?_, fun hn => ?_⟩
    · rw [hfinds i hi hin] at hn
      exact absurd hn (by simp)
    · by_contra hne
      obtain ⟨j, hj⟩ := Option.ne_none_iff_exists'.mp hne
      have hjl := (owner_spec hj).1
      exact hn j hjl ((owner_eq_iff hd gsi hjl).mp hj).1

theorem twoIoapics_disjoint : DisjointRanges twoIoapics := by
  have h0 : lastGsi twoIoapics 0 = 23 := rfl
  have h1 : lastGsi twoIoapics 1 = 279 := rfl
  have b0 : (twoIoapics.entry 0).gsiBase.toNat = 0 := rfl
  have b1 : (twoIoapics.entry 1).gsiBase.toNat = 256 := rfl
  have hlen : twoIoapics.madtIoapics.length = 2 := rfl
  constructor
  · intro i hi
    rw [hlen] at hi
    interval_cases i <;> omega
  · intro i hi j hj hij gsi h
    rw [hlen] at hi hj
    unfold InRange at h ⊢
    interval_cases i <;> interval_cases j <;> omega

theorem routes_iff_two : Routes twoIoapics 278#32 :=
  (routes_iff twoIoapics_disjoint 278#32).mpr fun i hi => by
    have hlen : twoIoapics.madtIoapics.length = 2 := rfl
    rw [hlen] at hi
    interval_cases i <;> decide

/-- Interrupt 23, the last pin of the first I/O APIC, finds none. -/
theorem last_pin_panics :
    DisjointRanges twoIoapics ∧ InRange twoIoapics 23#32 0 ∧ (ioapicIFromGsi twoIoapics 23#32).1 = none ∧
      ¬ Routes twoIoapics 23#32 := by
  have hin : InRange twoIoapics 23#32 0 := ⟨Nat.zero_le _, le_rfl⟩
  have hnone : (ioapicIFromGsi twoIoapics 23#32).1 = none := by decide
  refine ⟨twoIoapics_disjoint, hin, hnone, fun h => ?_⟩
  have hfound := h.finds 0 (by decide) hin
  rw [owner, hnone] at hfound
  exact absurd hfound (by simp)

end FusionCore.Dd.ApicRoute
