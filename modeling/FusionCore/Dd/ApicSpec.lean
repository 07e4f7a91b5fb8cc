import FusionCore.Dd.Apic

/-! # Programming the redirection tables

`Programmed` is what a sequence of `ioapic_set_gsi_redir` calls should leave: for each interrupt the
entry of the last call for it, in the two registers of its pin, and every other register of the
tables as it was. The register the macro computes is the pin's only for interrupts that are multiples
of 256 (`ioredtbl_eq_iff`); with such interrupts alone every sequence leaves what it should
(`programmed_of_aligned`). -/

namespace FusionCore.Dd.ApicSpec

open FusionCore.Dd.Apic

/-- The arguments of a call of `ioapic_set_gsi_redir`. -/
structure RedirCall where
  lapicId : BitVec 32
  vector : BitVec 8
  gsi : BitVec 32
  flags : BitVec 16
  mask : Bool
  deriving DecidableEq, Repr

/-- The entry a call builds. -/
def RedirCall.entry (c : RedirCall) : BitVec 64 := redirectEntry c.lapicId c.vector c.flags c.mask

/-- The fields of an entry: vector, polarity, trigger mode, mask and destination. -/
structure RedirCall.Describes (c : RedirCall) (e : BitVec 64) : Prop where
  vector : e.setWidth 8 = c.vector
  polarity : e.getLsbD 13 = c.flags.getLsbD 1
  trigger : e.getLsbD 15 = c.flags.getLsbD 3
  mask : e.getLsbD 16 = c.mask
  destination : (e >>> 56).setWidth 8 = c.lapicId.setWidth 8

/-- The effect of a call. -/
def exec (s : Ioapics) (c : RedirCall) : Option Ioapics :=
  ioapicSetGsiRedir s c.lapicId c.vector c.gsi c.flags c.mask

/-- A sequence of calls. -/
def run (s : Ioapics) (cs : List RedirCall) : Option Ioapics := cs.foldlM exec s

/-- The I/O APIC `ioapic_i_from_gsi` finds. -/
def owner (s : Ioapics) (gsi : BitVec 32) : Option ℕ := (ioapicIFromGsi s gsi).1

/-- The pin of an interrupt on I/O APIC `k`. -/
def pin (s : Ioapics) (gsi : BitVec 32) (k : ℕ) : ℕ := gsi.toNat - (s.entry k).gsiBase.toNat

/-- The register for the low half of the entry of a pin. -/
def lowReg (pin : ℕ) : BitVec 8 := BitVec.ofNat 8 (0x10 + 2 * pin)

/-- The register for the high half. -/
def highReg (pin : ℕ) : BitVec 8 := BitVec.ofNat 8 (0x11 + 2 * pin)

/-- At most 120 pins: the version register names the last one. -/
def FewPins (s : Ioapics) : Prop :=
  ∀ k < s.madtIoapics.length, (maxRedirField (s.reg k 1#8)).toNat < 120

/-- **What the calls `cs` should leave** of the state `s`. -/
structure Programmed (s : Ioapics) (cs : List RedirCall) (s' : Ioapics) : Prop where
  entries : ∀ c k, (cs.filter (·.gsi = c.gsi)).getLast? = some c → owner s c.gsi = some k →
    s'.reg k (lowReg (pin s c.gsi k)) = c.entry.setWidth 32 ∧
    s'.reg k (highReg (pin s c.gsi k)) = (c.entry >>> 32).setWidth 32
  fields : ∀ c ∈ cs, c.Describes c.entry
  others : ∀ k < s.madtIoapics.length, ∀ r : BitVec 8, 0x10#8 ≤ r →
    (∀ c ∈ cs, owner s c.gsi = some k → r ≠ lowReg (pin s c.gsi k) ∧ r ≠ highReg (pin s c.gsi k)) →
    s'.reg k r = s.reg k r

/-! ### The entry -/

theorem decide_flag (f : BitVec 16) {k : ℕ} (hk : k < 16) :
    decide (f &&& BitVec.twoPow 16 k ≠ 0) = f.getLsbD k := by
  have h0 : BitVec.twoPow 16 k ≠ 0#16 := fun h => by
    have := congrArg (fun v : BitVec 16 => v.getLsbD k) h
    simp [hk] at this
  rw [BitVec.and_twoPow]
  by_cases h : f.getLsbD k = true
  · simp [h, h0]
  · simp [h]

theorem getLsbD_bit {i k : ℕ} (hk : k < 64) : (1#64 <<< k).getLsbD i = decide (k = i) :=
  (BitVec.getLsbD_twoPow k i).trans (by simp [hk])

theorem getLsbD_ite_or {P : Prop} [Decidable P] (e : BitVec 64) {i k : ℕ} (hk : k < 64) :
    (if P then e ||| (1#64 <<< k) else e).getLsbD i = (e.getLsbD i || (decide P && decide (k = i))) := by
  by_cases h : P
  · rw [if_pos h, BitVec.getLsbD_or, getLsbD_bit hk, decide_eq_true h, Bool.true_and]
  · rw [if_neg h, decide_eq_false h, Bool.false_and, Bool.or_false]

theorem getLsbD_ite_mask (b : Bool) (e : BitVec 64) {i k : ℕ} (hi : i < 64) (hk : k < 64) :
    (if b then e ||| (1#64 <<< k) else e &&& ~~~ (1#64 <<< k)).getLsbD i =
      if k = i then b else e.getLsbD i := by
  cases b
  · rw [if_neg (by simp), BitVec.getLsbD_and, BitVec.getLsbD_not, getLsbD_bit hk]
    by_cases h : k = i <;> simp [h, hi]
  · rw [if_pos rfl, BitVec.getLsbD_or, getLsbD_bit hk]
    by_cases h : k = i <;> simp [h]

theorem entry_getLsbD (c : RedirCall) {i : ℕ} (hi : i < 64) : c.entry.getLsbD i =
    ((if 16 = i then c.mask else (c.vector.getLsbD i || (c.flags.getLsbD 1 && decide (13 = i))) ||
      (c.flags.getLsbD 3 && decide (15 = i))) ||
        (decide (56 ≤ i) && c.lapicId.getLsbD (i - 56))) := by
  have h1 : decide (c.flags &&& 2#16 ≠ 0) = c.flags.getLsbD 1 := by
    exact decide_flag c.flags (k := 1) (by norm_num)
  have h2 : decide (c.flags &&& 8#16 ≠ 0) = c.flags.getLsbD 3 := by
    exact decide_flag c.flags (k := 3) (by norm_num)
  have hl : (c.lapicId.setWidth 64 <<< 56).getLsbD i =
      (decide (56 ≤ i) && c.lapicId.getLsbD (i - 56)) := by
    by_cases h : i < 56
    · simp [h, hi, show ¬ 56 ≤ i by omega]
    · simp [h, hi, show 56 ≤ i by omega]
  have hv : (c.vector.setWidth 64).getLsbD i = c.vector.getLsbD i := by simp [hi]
  rw [RedirCall.entry, redirectEntry]
  rw [BitVec.getLsbD_or, hl, getLsbD_ite_mask _ _ hi (by norm_num), getLsbD_ite_or _ (by norm_num),
    getLsbD_ite_or _ (by norm_num), h1, h2, hv]

/-- **An entry has the fields of its call.** -/
theorem describes_entry (c : RedirCall) : c.Describes c.entry := by
  refine ⟨BitVec.eq_of_getLsbD_eq fun i hi => ?_, ?_, ?_, ?_, BitVec.eq_of_getLsbD_eq fun i hi => ?_⟩
  · rw [BitVec.getLsbD_setWidth, entry_getLsbD c (by omega)]
    simp [hi, show 16 ≠ i by omega, show 13 ≠ i by omega, show 15 ≠ i by omega, show ¬ 56 ≤ i by omega]
  · rw [entry_getLsbD c (by norm_num), BitVec.getLsbD_of_ge c.vector _ (by norm_num)]
    simp
  · rw [entry_getLsbD c (by norm_num), BitVec.getLsbD_of_ge c.vector _ (by norm_num)]
    simp
  · rw [entry_getLsbD c (by norm_num)]
    simp
  · rw [BitVec.getLsbD_setWidth, BitVec.getLsbD_setWidth, BitVec.getLsbD_ushiftRight,
      entry_getLsbD c (by omega), BitVec.getLsbD_of_ge c.vector _ (by omega)]
    simp [hi, show 16 ≠ 56 + i by omega, show 13 ≠ 56 + i by omega, show 15 ≠ 56 + i by omega]

/-! ### The registers of the pins -/

section Pins
variable {s : Ioapics} {gsi : BitVec 32} {k : ℕ}

theorem owner_spec (h : owner s gsi = some k) : k < s.madtIoapics.length ∧ s.Serves gsi k ∧
    ∀ j < k, ¬ s.Serves gsi j := by
  rcases (ioapicIFromGsi_spec s gsi).2 with ⟨j, h1, h2, h3, h4⟩ | ⟨-, h2⟩
  · rw [owner, h4] at h
    obtain rfl := Option.some.inj h
    exact ⟨h1, h2, h3⟩
  · rw [owner, h2] at h
    exact absurd h (by simp)

theorem owner_congr {s' : Ioapics} (hm : s'.madtIoapics = s.madtIoapics)
    (hv : ∀ j < s.madtIoapics.length, s'.reg j 1#8 = s.reg j 1#8) (gsi : BitVec 32) :
    owner s' gsi = owner s gsi := by
  have hs : ∀ j < s.madtIoapics.length, (s'.Serves gsi j ↔ s.Serves gsi j) := fun j hj => by
    rw [Ioapics.Serves, Ioapics.Serves, entry_of_madt hm, hv j hj]
  have h' := (ioapicIFromGsi_spec s' gsi).2
  rw [hm] at h'
  rcases h' with ⟨j, h1, h2, h3, h4⟩ | ⟨h1, h2⟩ <;>
    rcases (ioapicIFromGsi_spec s gsi).2 with ⟨i, h5, h6, h7, h8⟩ | ⟨h5, h6⟩
  · rw [owner, owner, h4, h8]
    rcases Nat.lt_trichotomy i j with hij | rfl | hij
    · exact absurd ((hs i h5).mpr h6) (h3 i hij)
    · rfl
    · exact absurd ((hs j h1).mp h2) (h7 j hij)
  · exact absurd ((hs j h1).mp h2) (h5 j h1)
  · exact absurd ((hs i h5).mpr h6) (h1 i h5)
  · rw [owner, owner, h2, h6]

theorem pin_lt (hp : FewPins s) (h : owner s gsi = some k) :
    (s.entry k).gsiBase.toNat + pin s gsi k = gsi.toNat ∧ pin s gsi k < 120 := by
  obtain ⟨hk, ⟨h1, h2⟩, -⟩ := owner_spec h
  have h3 := hp k hk
  have hle : (s.entry k).gsiBase.toNat ≤ gsi.toNat := h1
  have hlt : gsi.toNat < ((s.entry k).gsiBase + maxRedirField (s.reg k 1#8)).toNat := h2
  rw [BitVec.toNat_add] at hlt
  have hmod := Nat.mod_le ((s.entry k).gsiBase.toNat + (maxRedirField (s.reg k 1#8)).toNat) (2 ^ 32)
  unfold pin
  omega

theorem lowReg_toNat {p : ℕ} (h : p < 120) : (lowReg p).toNat = 0x10 + 2 * p := by
  rw [lowReg, BitVec.toNat_ofNat]
  omega

theorem highReg_toNat {p : ℕ} (h : p < 120) : (highReg p).toNat = 0x11 + 2 * p := by
  rw [highReg, BitVec.toNat_ofNat]
  omega

theorem ne_version {p : ℕ} (h : p < 120) : lowReg p ≠ 1#8 ∧ highReg p ≠ 1#8 := by
  have h1 : (1#8).toNat = 1 := rfl
  simp only [ne_eq, ← BitVec.toNat_inj, lowReg_toNat h, highReg_toNat h, h1]
  omega

/-- **The register the macro computes** is the pin's exactly for multiples of 256. -/
theorem ioredtbl_eq_iff (hp : FewPins s) (h : owner s gsi = some k) :
    (ioredtbl gsi (s.entry k).gsiBase).setWidth 8 = lowReg (pin s gsi k) ↔ gsi.toNat % 256 = 0 := by
  obtain ⟨h1, h2⟩ := pin_lt hp h
  rw [← BitVec.toNat_inj, lowReg_toNat h2, BitVec.toNat_setWidth, ioredtbl, BitVec.toNat_add,
    BitVec.toNat_sub, BitVec.toNat_mul]
  have hg := gsi.isLt
  have hb := (s.entry k).gsiBase.isLt
  have e1 : (2#32).toNat = 2 := rfl
  have e2 : (0x10#32).toNat = 16 := rfl
  rw [e1, e2]
  omega

theorem ioredtbl_succ_eq (hp : FewPins s) (h : owner s gsi = some k) (hg : gsi.toNat % 256 = 0) :
    (ioredtbl gsi (s.entry k).gsiBase + 1#32).setWidth 8 = highReg (pin s gsi k) := by
  obtain ⟨h1, h2⟩ := pin_lt hp h
  have hlow := (ioredtbl_eq_iff hp h).mpr hg
  have e1 : (1#32).toNat = 1 := rfl
  rw [← BitVec.toNat_inj, lowReg_toNat h2, BitVec.toNat_setWidth] at hlow
  rw [← BitVec.toNat_inj, highReg_toNat h2, BitVec.toNat_setWidth, BitVec.toNat_add, e1]
  omega

theorem regs_ne {p q : ℕ} (hp : p < 120) (hq : q < 120) (hpq : p ≠ q) :
    lowReg p ≠ lowReg q ∧ lowReg p ≠ highReg q ∧ highReg p ≠ lowReg q ∧ highReg p ≠ highReg q := by
  simp only [ne_eq, ← BitVec.toNat_inj, lowReg_toNat hp, lowReg_toNat hq, highReg_toNat hp,
    highReg_toNat hq]
  omega

end Pins

/-! ### The calls -/

section Calls
variable {s : Ioapics} (hd : s.Distinct) (hp : FewPins s)
include hd hp

/-- **One call** for an interrupt that is a multiple of 256 writes the registers of its pin and no
other. -/
theorem exec_spec {c : RedirCall} {k : ℕ} (ho : owner s c.gsi = some k) (hg : c.gsi.toNat % 256 = 0) :
    ∃ s', exec s c = some s' ∧ s'.madtIoapics = s.madtIoapics ∧
      ∀ j < s.madtIoapics.length, ∀ r, s'.reg j r =
        if j = k ∧ r = highReg (pin s c.gsi k) then (c.entry >>> 32).setWidth 32
        else if j = k ∧ r = lowReg (pin s c.gsi k) then c.entry.setWidth 32 else s.reg j r := by
  obtain ⟨hk, -, -⟩ := owner_spec ho
  obtain ⟨hs, -⟩ := ioapicIFromGsi_spec s c.gsi
  have hlow := (ioredtbl_eq_iff hp ho).mpr hg
  have hhigh := ioredtbl_succ_eq hp ho hg
  set t := (ioapicIFromGsi s c.gsi).2 with ht
  have hfind : ioapicIFromGsi s c.gsi = (some k, t) := Prod.ext ho rfl
  have htd : t.Distinct := by rw [Ioapics.Distinct, hs.madt]; exact hd
  have htl : t.madtIoapics.length = s.madtIoapics.length := by rw [hs.madt]
  obtain ⟨hlow1, hhigh1⟩ := ne_version (pin_lt hp ho).2
  obtain ⟨h1, h2⟩ := ioapicWriteReg_spec htd (htl ▸ hk) hlow1 (c.entry.setWidth 32)
  set u := ioapicWriteReg t k (lowReg (pin s c.gsi k)) (c.entry.setWidth 32) with hu
  have hud : u.Distinct := by rw [Ioapics.Distinct, h1]; exact htd
  have hul : u.madtIoapics.length = s.madtIoapics.length := by rw [h1, htl]
  obtain ⟨h3, h4⟩ := ioapicWriteReg_spec hud (hul ▸ hk) hhigh1 ((c.entry >>> 32).setWidth 32)
  refine ⟨_, ?_, h3.trans (h1.trans hs.madt), fun j hj r => ?_⟩
  · rw [exec, ioapicSetGsiRedir, hfind]
    dsimp only
    rw [entry_of_madt hs.madt, hlow, hhigh]
    rfl
  · rw [h4 j (hul ▸ hj), h2 j (htl ▸ hj), hs.reg]

omit hd in
theorem other_regs {g g' : BitVec 32} {k k' : ℕ} {r : BitVec 8} (hk : owner s g = some k)
    (hk' : owner s g' = some k') (hne : g ≠ g')
    (hr : r = lowReg (pin s g' k') ∨ r = highReg (pin s g' k')) :
    ¬ (k' = k ∧ r = highReg (pin s g k)) ∧ ¬ (k' = k ∧ r = lowReg (pin s g k)) := by
  by_cases hkk : k' = k
  · subst hkk
    obtain ⟨hb, hlt⟩ := pin_lt hp hk
    obtain ⟨hb', hlt'⟩ := pin_lt hp hk'
    have hpp : pin s g' k' ≠ pin s g k' := fun h => hne (BitVec.eq_of_toNat_eq (by omega))
    obtain ⟨d1, d2, d3, d4⟩ := regs_ne hlt' hlt hpp
    rcases hr with rfl | rfl
    · exact ⟨fun h => d2 h.2, fun h => d1 h.2⟩
    · exact ⟨fun h => d4 h.2, fun h => d3 h.2⟩
  · exact ⟨fun h => hkk h.1, fun h => hkk h.1⟩

/-- **Sequences.** -/
theorem run_spec {cs : List RedirCall} (ho : ∀ c ∈ cs, owner s c.gsi ≠ none)
    (hg : ∀ c ∈ cs, c.gsi.toNat % 256 = 0) :
    ∃ s', run s cs = some s' ∧ s'.madtIoapics = s.madtIoapics ∧
      (∀ j < s.madtIoapics.length, s'.reg j 1#8 = s.reg j 1#8) ∧ Programmed s cs s' := by
  induction cs using List.reverseRecOn with
  | nil => exact ⟨s, rfl, rfl, fun _ _ => rfl, ⟨by simp, by simp, fun _ _ _ _ _ => rfl⟩⟩
  | append_singleton cs c ih =>
    obtain ⟨t, h1, h2, h3, h4⟩ := ih (fun c' h => ho c' (by simp [h])) fun c' h => hg c' (by simp [h])
    obtain ⟨k, hk⟩ := Option.ne_none_iff_exists'.mp (ho c (by simp))
    have hkl := (owner_spec hk).1
    have htd : t.Distinct := by rw [Ioapics.Distinct, h2]; exact hd
    have htp : FewPins t := fun j hj => by rw [h3 j (h2 ▸ hj)]; exact hp j (h2 ▸ hj)
    have hpin : ∀ g j, pin t g j = pin s g j := fun g j => by rw [pin, pin, entry_of_madt h2]
    obtain ⟨s', h5, h6, h7⟩ := exec_spec htd htp ((owner_congr h2 h3 c.gsi).trans hk) (hg c (by simp))
    rw [h2, hpin] at h7
    obtain ⟨-, hlt⟩ := pin_lt hp hk
    obtain ⟨hlow1, hhigh1⟩ := ne_version hlt
    have hne : highReg (pin s c.gsi k) ≠ lowReg (pin s c.gsi k) := by
      simp only [ne_eq, ← BitVec.toNat_inj, lowReg_toNat hlt, highReg_toNat hlt]
      omega
    refine ⟨s', ?_, h6.trans h2, fun j hj => ?_, fun c' k' hlast hk' => ?_,
      fun c' _ => describes_entry c', fun j hj r hr hn => ?_⟩
    · rw [run, List.foldlM_append]
      show (run s cs >>= fun t => exec t c >>= pure) = _
      rw [h1]
      simpa using h5
    · rw [h7 j hj, if_neg fun h => hhigh1 h.2.symm, if_neg fun h => hlow1 h.2.symm, h3 j hj]
    · by_cases hc : c.gsi = c'.gsi
      · -- the call is the last one for its interrupt
        rw [List.filter_append] at hlast
        simp only [List.filter_cons, hc, decide_true, if_true, List.filter_nil,
          List.getLast?_append, List.getLast?_singleton, Option.some_or, Option.some.injEq] at hlast
        subst hlast
        rw [hk] at hk'
        obtain rfl := Option.some.inj hk'
        constructor
        · rw [h7 k hkl, if_neg fun h => hne h.2.symm, if_pos ⟨rfl, rfl⟩]
        · rw [h7 k hkl, if_pos ⟨rfl, rfl⟩]
      · have hlast' : (cs.filter (·.gsi = c'.gsi)).getLast? = some c' := by
          rw [List.filter_append] at hlast
          simpa [hc] using hlast
        obtain ⟨e1, e2⟩ := h4.entries c' k' hlast' hk'
        have hk'l := (owner_spec hk').1
        have hother : ∀ r, (r = lowReg (pin s c'.gsi k') ∨ r = highReg (pin s c'.gsi k')) →
            s'.reg k' r = t.reg k' r := by
          intro r hr
          obtain ⟨n1, n2⟩ := other_regs hp hk hk' hc hr
          rw [h7 k' hk'l, if_neg n1, if_neg n2]
        exact ⟨(hother _ (Or.inl rfl)).trans e1, (hother _ (Or.inr rfl)).trans e2⟩
    · rw [h7 j hj]
      have hkeep := h4.others j hj r hr fun c' h => hn c' (by simp [h])
      by_cases hjk : j = k
      · subst hjk
        obtain ⟨n1, n2⟩ := hn c (by simp) hk
        rw [if_neg fun h => n2 h.2, if_neg fun h => n1 h.2, hkeep]
      · rw [if_neg fun h => hjk h.1, if_neg fun h => hjk h.1, hkeep]

end Calls

/-- **Programming by multiples of 256.** If every interrupt of the sequence is one, the calls leave
what they should; and the register a call writes is its pin's exactly if its interrupt is one. -/
theorem programmed_of_aligned {s : Ioapics} (hd : s.Distinct) (hp : FewPins s) (cs : List RedirCall)
    (ho : ∀ c ∈ cs, owner s c.gsi ≠ none) :
    ((∀ c ∈ cs, c.gsi.toNat % 256 = 0) → ∃ s', run s cs = some s' ∧ Programmed s cs s') ∧
    ∀ c ∈ cs, ∀ k, owner s c.gsi = some k →
      ((ioredtbl c.gsi (s.entry k).gsiBase).setWidth 8 = lowReg (pin s c.gsi k) ↔
        c.gsi.toNat % 256 = 0) := by
  refine ⟨fun hg => ?_, fun c _ k hk => ioredtbl_eq_iff hp hk⟩
  obtain ⟨s', h1, -, -, h2⟩ := run_spec hd hp ho hg
  exact ⟨s', h1, h2⟩

/-- Two I/O APICs of 24 pins, one for the interrupts from 0 on and one for those from 256 on. -/
def twoIoapics : Ioapics where
  madtIoapics := [⟨0xFEC00000#32, 0#32⟩, ⟨0xFEC01000#32, 256#32⟩]
  bus _ := ⟨0#32, fun r => if r = 1#8 then 0x170011#32 else 0#32⟩

theorem twoIoapics_distinct : twoIoapics.Distinct := by
  unfold Ioapics.Distinct
  decide

theorem twoIoapics_fewPins : FewPins twoIoapics := by
  unfold FewPins
  decide

theorem programmed_of_aligned_two :
    ∃ s', run twoIoapics [⟨0, 32, 0, 0, true⟩, ⟨1, 40, 256, 2, false⟩] = some s' ∧
      Programmed twoIoapics [⟨0, 32, 0, 0, true⟩, ⟨1, 40, 256, 2, false⟩] s' :=
  (programmed_of_aligned twoIoapics_distinct twoIoapics_fewPins
    [⟨0, 32, 0, 0, true⟩, ⟨1, 40, 256, 2, false⟩] (by decide)).1 (by decide)

/-- The entry for interrupt 1 goes to the registers `0x11` and `0x12` in place of `0x12` and `0x13`. -/
theorem redirection_one_misplaced :
    ∃ s', run twoIoapics [⟨0, 33, 1, 0, true⟩] = some s' ∧
      ¬ Programmed twoIoapics [⟨0, 33, 1, 0, true⟩] s' := by
  refine ⟨(run twoIoapics [⟨0, 33, 1, 0, true⟩]).get (by decide), by simp, fun h => ?_⟩
  have h1 := (h.entries ⟨0, 33, 1, 0, true⟩ 0 (by decide) (by decide)).1
  exact absurd h1 (by decide)

end FusionCore.Dd.ApicSpec
