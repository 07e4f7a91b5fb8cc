import FusionCore.Dd.ApicInitSpec

/-! # What the redirection tables hold

`IRQ_TO_IOREDTBL_REG(gsi - base)` is the register `gsi - 2 * base + 0x10`, so the calls for
interrupts of one parity overwrite halves of the entries that those of the other have written.

* `reg_after_run`: after any sequence of calls each register has the word of the last call that
  reaches it.
* `pin_masked_iff`: at interrupt base 0, masking calls leave pin `q` masked exactly if the last one
  for the interrupts `2 * q` and `2 * q - 1` is for the former.
* `apicInit_unmasks`: if the last interrupt of the lines is odd, `apic_init` leaves the pin after it
  open, with vector 0, by the word of a destination in the low half of its entry. -/

namespace FusionCore.Dd.ApicTable

open FusionCore.Dd.Apic FusionCore.Dd.ApicSpec FusionCore.Dd.ApicInit FusionCore.Dd.ApicInitSpec

/-- The register a call writes first, on I/O APIC `k`. -/
def firstReg (s : Ioapics) (k : ℕ) (c : RedirCall) : BitVec 8 :=
  (ioredtbl c.gsi (s.entry k).gsiBase).setWidth 8

/-- The call writes register `r` of I/O APIC `k`. -/
def Reaches (s : Ioapics) (k : ℕ) (r : BitVec 8) (c : RedirCall) : Prop :=
  owner s c.gsi = some k ∧ (r = firstReg s k c ∨ r = firstReg s k c + 1)

instance (s : Ioapics) (k : ℕ) (r : BitVec 8) (c : RedirCall) : Decidable (Reaches s k r c) := by
  unfold Reaches; infer_instance

/-- The word it writes there. -/
def wordAt (s : Ioapics) (k : ℕ) (r : BitVec 8) (c : RedirCall) : BitVec 32 :=
  if r = firstReg s k c then c.entry.setWidth 32 else (c.entry >>> 32).setWidth 32

/-- The last call that reaches a register. -/
def lastReaching (s : Ioapics) (k : ℕ) (r : BitVec 8) (cs : List RedirCall) : Option RedirCall :=
  (cs.filter (Reaches s k r ·)).getLast?

variable {s s' : Ioapics} {c : RedirCall} {cs : List RedirCall} {k q : ℕ} {r : BitVec 8}

/-! ### One call -/

theorem reg_ioapicWriteReg (hd : s.Distinct) {i j : ℕ} (hi : i < s.madtIoapics.length)
    (hj : j < s.madtIoapics.length) (r' : BitVec 8) (v : BitVec 32) (hr : r ≠ 1#8) :
    (ioapicWriteReg s i r' v).reg j r = if j = i ∧ r = r' then v else s.reg j r := by
  by_cases h1 : r' = 1#8
  · -- the write is ignored
    subst h1
    rw [if_neg fun h => hr h.2]
    have hb := congrFun (writeWin_writeRegsel s (s.addr i) 1#8 v (s.addr j)) r
    rw [if_neg fun h => h.2 rfl] at hb
    exact hb
  · exact (ioapicWriteReg_spec hd hi h1 v).2 j hj r

/-- **One call** writes two registers of the I/O APIC it finds. -/
theorem reg_exec (hd : s.Distinct) {i : ℕ} (ho : owner s c.gsi = some i) : ∃ s', exec s c = some s' ∧
    s'.madtIoapics = s.madtIoapics ∧ (∀ j, s'.reg j 1#8 = s.reg j 1#8) ∧
      ∀ j < s.madtIoapics.length, ∀ r ≠ 1#8,
        s'.reg j r = if Reaches s j r c then wordAt s j r c else s.reg j r := by
  obtain ⟨hi, -, -⟩ := owner_spec ho
  obtain ⟨hs, -⟩ := ioapicIFromGsi_spec s c.gsi
  set t := (ioapicIFromGsi s c.gsi).2 with ht
  have hfind : ioapicIFromGsi s c.gsi = (some i, t) := Prod.ext ho rfl
  have htd : t.Distinct := by rw [Ioapics.Distinct, hs.madt]; exact hd
  have hlen : t.madtIoapics.length = s.madtIoapics.length := by rw [hs.madt]
  have hsucc : (ioredtbl c.gsi (s.entry i).gsiBase + 1#32).setWidth 8 = firstReg s i c + 1 :=
    BitVec.setWidth_add _ _ (by norm_num)
  set u := ioapicWriteReg t i (firstReg s i c) (c.entry.setWidth 32) with hu
  have hexec : exec s c = some (ioapicWriteReg u i (firstReg s i c + 1)
      ((c.entry >>> 32).setWidth 32)) := by
    rw [exec, ioapicSetGsiRedir, hfind]
    dsimp only
    rw [entry_of_madt hs.madt, hsucc]
    rfl
  refine ⟨_, hexec, hs.madt, fun j => ?_, fun j hj r hr => ?_⟩
  · rw [version_ioapicWriteReg, hu, version_ioapicWriteReg, hs.reg]
  · have hud : u.Distinct := htd
    have hul : u.madtIoapics.length = s.madtIoapics.length := hlen
    rw [reg_ioapicWriteReg hud (hul ▸ hi) (hul ▸ hj) _ _ hr, hu,
      reg_ioapicWriteReg htd (hlen ▸ hi) (hlen ▸ hj) _ _ hr, hs.reg]
    have hne : firstReg s i c + 1 ≠ firstReg s i c := by
      generalize firstReg s i c = x
      bv_omega
    by_cases hji : j = i
    · subst hji
      have hreach : Reaches s j r c ↔ r = firstReg s j c ∨ r = firstReg s j c + 1 := and_iff_right ho
      by_cases h1 : r = firstReg s j c
      · rw [if_neg fun h => hne (h.2.symm.trans h1), if_pos ⟨rfl, h1⟩,
          if_pos (hreach.mpr (Or.inl h1)), wordAt, if_pos h1]
      · by_cases h2 : r = firstReg s j c + 1
        · rw [if_pos ⟨rfl, h2⟩, if_pos (hreach.mpr (Or.inr h2)), wordAt, if_neg h1]
        · rw [if_neg fun h => h2 h.2, if_neg fun h => h1 h.2, if_neg fun h => (hreach.mp h).elim h1 h2]
    · have hother : ¬ Reaches s j r c := fun h => hji (Option.some.inj (h.1.symm.trans ho))
      rw [if_neg fun h => hji h.1, if_neg fun h => hji h.1, if_neg hother]

/-! ### Sequences of calls -/

theorem reaches_congr (hm : s'.madtIoapics = s.madtIoapics) (hv : ∀ j, s'.reg j 1#8 = s.reg j 1#8) :
    (Reaches s' k r c ↔ Reaches s k r c) ∧ wordAt s' k r c = wordAt s k r c := by
  have hf : firstReg s' k c = firstReg s k c := by rw [firstReg, firstReg, entry_of_madt hm]
  rw [Reaches, Reaches, wordAt, wordAt, hf, owner_congr hm (fun j _ => hv j)]
  exact ⟨Iff.rfl, rfl⟩

theorem lastReaching_snoc : lastReaching s k r (cs ++ [c]) =
    if Reaches s k r c then some c else lastReaching s k r cs := by
  rw [lastReaching, lastReaching, List.filter_append, List.getLast?_append]
  by_cases h : Reaches s k r c
  · have hone : [c].filter (Reaches s k r ·) = [c] := List.filter_eq_self.mpr (by simpa using h)
    rw [if_pos h, hone]
    rfl
  · have hnone : [c].filter (Reaches s k r ·) = [] := List.filter_eq_nil_iff.mpr (by simpa using h)
    rw [if_neg h, hnone]
    rfl

/-- **A run**: the version registers stay, every other one has the word of the last call that reaches
it. -/
theorem reg_run (hd : s.Distinct) (ho : ∀ c ∈ cs, owner s c.gsi ≠ none) : ∃ s', run s cs = some s' ∧
    s'.madtIoapics = s.madtIoapics ∧ (∀ j, s'.reg j 1#8 = s.reg j 1#8) ∧
      ∀ j < s.madtIoapics.length, ∀ r ≠ 1#8,
        s'.reg j r = (lastReaching s j r cs).elim (s.reg j r) (wordAt s j r) := by
  induction cs using List.reverseRecOn with
  | nil => exact ⟨s, rfl, rfl, fun _ => rfl, fun _ _ _ _ => rfl⟩
  | append_singleton cs c ih =>
    obtain ⟨t, h1, h2, h3, h4⟩ := ih fun c' h => ho c' (List.mem_append_left _ h)
    obtain ⟨i, hi⟩ := Option.ne_none_iff_exists'.mp (ho c (by simp))
    have htd : t.Distinct := by rw [Ioapics.Distinct, h2]; exact hd
    obtain ⟨s', h5, h6, h7, h8⟩ := reg_exec htd ((owner_congr h2 (fun j _ => h3 j) c.gsi).trans hi)
    refine ⟨s', ?_, h6.trans h2, fun j => (h7 j).trans (h3 j), fun j hj r hr => ?_⟩
    · rw [run, List.foldlM_append]
      show (run s cs >>= fun t => exec t c >>= pure) = _
      rw [h1]
      simpa using h5
    · obtain ⟨hc, hw⟩ := reaches_congr (k := j) (r := r) (c := c) h2 h3
      rw [h8 j (h2 ▸ hj) r hr, h4 j hj r hr, lastReaching_snoc, hw]
      by_cases h : Reaches s j r c
      · rw [if_pos h, if_pos (hc.mpr h)]
        rfl
      · rw [if_neg h, if_neg fun h' => h (hc.mp h')]

/-- **What the calls leave.** -/
theorem reg_after_run (hd : s.Distinct) (cs : List RedirCall) (ho : ∀ c ∈ cs, owner s c.gsi ≠ none) :
    ∃ s', run s cs = some s' ∧ ∀ k < s.madtIoapics.length, s'.reg k 1#8 = s.reg k 1#8 ∧
      ∀ r ≠ 1#8, s'.reg k r = (lastReaching s k r cs).elim (s.reg k r) (wordAt s k r) := by
  obtain ⟨s', h1, -, h3, h4⟩ := reg_run hd ho
  exact ⟨s', h1, fun k hk => ⟨h3 k, h4 k hk⟩⟩

/-- The calls for interrupts 1 and 2: the second one writes over the destination of the first. -/
theorem reg_after_run_two : ∃ s', run twoIoapics [⟨0, 33, 1, 0, true⟩, ⟨0, 34, 2, 0, true⟩] = some s' ∧
    s'.reg 0 0x11#8 = 0x10021#32 ∧ s'.reg 0 0x12#8 = 0x10022#32 ∧ s'.reg 0 0x13#8 = 0#32 := by
  obtain ⟨s', h1, h2⟩ := reg_after_run twoIoapics_distinct [⟨0, 33, 1, 0, true⟩, ⟨0, 34, 2, 0, true⟩]
    (by decide)
  obtain ⟨-, h⟩ := h2 0 (by decide)
  exact ⟨s', h1, (h 0x11#8 (by decide)).trans (by decide), (h 0x12#8 (by decide)).trans (by decide),
    (h 0x13#8 (by decide)).trans (by decide)⟩

/-! ### Pins at interrupt base 0 -/

/-- The mask bit of a pin. -/
def Masked (s : Ioapics) (k q : ℕ) : Prop := (s.reg k (lowReg q)).getLsbD 16 = true

/-- The vector of a pin. -/
def vectorOf (s : Ioapics) (k q : ℕ) : BitVec 8 := (s.reg k (lowReg q)).setWidth 8

/-- The call is for interrupt `2 * q` or the one before, on I/O APIC `k`. -/
def Beside (s : Ioapics) (k q : ℕ) (c : RedirCall) : Prop :=
  owner s c.gsi = some k ∧ (c.gsi.toNat = 2 * q ∨ c.gsi.toNat + 1 = 2 * q)

instance (s : Ioapics) (k q : ℕ) (c : RedirCall) : Decidable (Beside s k q c) := by
  unfold Beside; infer_instance

theorem high_entry (c : RedirCall) : (c.entry >>> 32).setWidth 32 = c.lapicId <<< 24 := by
  refine BitVec.eq_of_getLsbD_eq fun i hi => ?_
  have hbit : ((c.entry >>> 32).setWidth 32).getLsbD i = c.entry.getLsbD (32 + i) := by simp [hi]
  rw [hbit, entry_getLsbD c (by omega), BitVec.getLsbD_of_ge c.vector _ (by omega),
    BitVec.getLsbD_shiftLeft]
  by_cases h : i < 24
  · simp [hi, h, show 16 ≠ 32 + i by omega, show 13 ≠ 32 + i by omega, show 15 ≠ 32 + i by omega,
      show ¬ 56 ≤ 32 + i by omega]
  · simp [hi, h, show 16 ≠ 32 + i by omega, show 13 ≠ 32 + i by omega, show 15 ≠ 32 + i by omega,
      show 56 ≤ 32 + i by omega, show 32 + i - 56 = i - 24 by omega]

theorem shifted_open (x : BitVec 32) : (x <<< 24).getLsbD 16 = false ∧ (x <<< 24).setWidth 8 = 0#8 := by
  refine ⟨by simp, BitVec.eq_of_getLsbD_eq fun i hi => ?_⟩
  simp [hi]

section Pins
variable (hp : FewPins s) (hb : (s.entry k).gsiBase = 0#32)
include hp hb

theorem firstReg_toNat (ho : owner s c.gsi = some k) :
    c.gsi.toNat < 120 ∧ (firstReg s k c).toNat = c.gsi.toNat + 16 := by
  obtain ⟨-, hlt⟩ := pin_lt hp ho
  rw [pin, hb] at hlt
  have hlt : c.gsi.toNat < 120 := hlt
  refine ⟨hlt, ?_⟩
  rw [firstReg, ioredtbl, hb, BitVec.toNat_setWidth]
  have hz : c.gsi - 0#32 * 2#32 + 16#32 = c.gsi + 16#32 := by bv_omega
  rw [hz]
  bv_omega

theorem reaches_lowReg (hq : q < 120) : Reaches s k (lowReg q) c ↔ Beside s k q c := by
  refine and_congr_right fun ho => ?_
  obtain ⟨hlt, hf⟩ := firstReg_toNat hp hb ho
  have hl := lowReg_toNat hq
  generalize firstReg s k c = x at hf
  generalize lowReg q = y at hl
  constructor
  · rintro (rfl | rfl)
    · omega
    · bv_omega
  · rintro (h | h)
    · exact Or.inl (BitVec.eq_of_toNat_eq (by omega))
    · exact Or.inr (BitVec.eq_of_toNat_eq (by bv_omega))

theorem wordAt_lowReg (hq : q < 120) (h : Beside s k q c) : wordAt s k (lowReg q) c =
    if c.gsi.toNat = 2 * q then c.entry.setWidth 32 else c.lapicId <<< 24 := by
  obtain ⟨hlt, hf⟩ := firstReg_toNat hp hb h.1
  have hl := lowReg_toNat hq
  have hiff : lowReg q = firstReg s k c ↔ c.gsi.toNat = 2 * q := by
    rw [← BitVec.toNat_inj, hl, hf]
    omega
  rw [wordAt, high_entry]
  exact if_congr hiff rfl rfl

theorem lowReg_run (hd : s.Distinct) (ho : ∀ c ∈ cs, owner s c.gsi ≠ none) (hk : k < s.madtIoapics.length)
    (hq : q < 120) (hr : run s cs = some s') (hlast : (cs.filter (Beside s k q ·)).getLast? = some c) :
    s'.reg k (lowReg q) = if c.gsi.toNat = 2 * q then c.entry.setWidth 32 else c.lapicId <<< 24 := by
  obtain ⟨t, h1, -, -, h4⟩ := reg_run hd ho
  obtain rfl := Option.some.inj (hr.symm.trans h1)
  have hfilter : lastReaching s k (lowReg q) cs = some c := by
    rw [← hlast, lastReaching]
    exact congrArg List.getLast? (List.filter_congr fun x _ =>
      decide_eq_decide.mpr (reaches_lowReg hp hb hq))
  have hbeside := of_decide_eq_true (List.mem_filter.mp (List.mem_of_getLast? hlast)).2
  rw [h4 k hk _ (ne_version hq).1, hfilter]
  exact wordAt_lowReg hp hb hq hbeside

theorem highReg_run (hd : s.Distinct) (ho : ∀ c ∈ cs, owner s c.gsi ≠ none)
    (hk : k < s.madtIoapics.length)
    (hq : q < 120) (hr : run s cs = some s') (hlt : ∀ c ∈ cs, c.gsi.toNat < 2 * q) :
    s'.reg k (highReg q) = s.reg k (highReg q) := by
  obtain ⟨t, h1, -, -, h4⟩ := reg_run hd ho
  obtain rfl := Option.some.inj (hr.symm.trans h1)
  have hnone : cs.filter (Reaches s k (highReg q) ·) = [] := by
    refine List.filter_eq_nil_iff.mpr fun c hc => ?_
    simp only [decide_eq_true_eq]
    rintro ⟨hown, hreg⟩
    have hlast := hlt c hc
    obtain ⟨-, hf⟩ := firstReg_toNat hp hb hown
    have hh := highReg_toNat hq
    generalize firstReg s k c = x at hf hreg
    generalize highReg q = y at hh hreg
    rcases hreg with rfl | rfl
    · omega
    · bv_omega
  rw [h4 k hk _ (ne_version hq).2, lastReaching, hnone]
  rfl

/-- **Masking calls** leave a pin masked exactly if the last call beside it is for it; otherwise its
vector is 0. -/
theorem pin_masked_iff (hd : s.Distinct) (cs : List RedirCall) (ho : ∀ c ∈ cs, owner s c.gsi ≠ none)
    (hk : k < s.madtIoapics.length) (hm : ∀ c ∈ cs, c.mask = true) (hq : q < 120)
    (hlast : (cs.filter (Beside s k q ·)).getLast? = some c) :
    ∃ s', run s cs = some s' ∧ (Masked s' k q ↔ c.gsi.toNat = 2 * q) ∧
      vectorOf s' k q = if c.gsi.toNat = 2 * q then c.vector else 0#8 := by
  obtain ⟨s', hr, -⟩ := reg_run hd ho
  have hmem := (List.mem_filter.mp (List.mem_of_getLast? hlast)).1
  have hmask : (c.entry.setWidth 32).getLsbD 16 = true := by
    have h : (c.entry.setWidth 32).getLsbD 16 = c.entry.getLsbD 16 := by simp
    rw [h, (describes_entry c).mask, hm c hmem]
  have hvec : (c.entry.setWidth 32).setWidth 8 = c.vector := by
    rw [BitVec.setWidth_setWidth_of_le _ (by norm_num), (describes_entry c).vector]
  refine ⟨s', hr, ?_⟩
  rw [Masked, vectorOf, lowReg_run hp hb hd ho hk hq hr hlast]
  by_cases h : c.gsi.toNat = 2 * q
  · rw [if_pos h, if_pos h]
    exact ⟨iff_of_true hmask h, hvec⟩
  · rw [if_neg h, if_neg h]
    have hopen := shifted_open c.lapicId
    exact ⟨iff_of_false (by rw [hopen.1]; simp) h, hopen.2⟩

end Pins

/-- The call for interrupt 1 opens pin 1. -/
theorem pin_masked_iff_two : ∃ s', run twoIoapics [⟨0, 34, 2, 0, true⟩, ⟨0, 33, 1, 0, true⟩] = some s' ∧
    ¬ Masked s' 0 1 := by
  obtain ⟨s', h1, h2, -⟩ := pin_masked_iff (k := 0) (q := 1) (c := ⟨0, 33, 1, 0, true⟩)
    twoIoapics_fewPins rfl twoIoapics_distinct [⟨0, 34, 2, 0, true⟩, ⟨0, 33, 1, 0, true⟩] (by decide)
    (by decide) (by decide) (by decide) (by decide)
  exact ⟨s', h1, fun h => absurd (h2.mp h) (by decide)⟩

/-! ### `apic_init` -/

/-- From `p` to `p'` the recorded calls are the ones made on the I/O APICs. -/
def Replays (p p' : Platform) : Prop :=
  ∃ cs, p'.calls = p.calls ++ cs ∧ run p.ioapics cs = some p'.ioapics

section Replay
variable {p p' p'' : Platform}

theorem Replays.refl (p : Platform) : Replays p p := ⟨[], (List.append_nil _).symm, rfl⟩

theorem Replays.trans (h : Replays p p') (h' : Replays p' p'') : Replays p p'' := by
  obtain ⟨cs, h1, h2⟩ := h
  obtain ⟨cs', h3, h4⟩ := h'
  refine ⟨cs ++ cs', by rw [h3, h1, List.append_assoc], ?_⟩
  rw [run, List.foldlM_append]
  show (run p.ioapics cs >>= fun s => run s cs') = _
  rw [h2]
  exact h4

theorem replays_setGsiRedir (h : setGsiRedir p c = some p') : Replays p p' := by
  obtain ⟨s', hs, rfl⟩ := Option.map_eq_some_iff.mp h
  refine ⟨[c], rfl, ?_⟩
  show (exec p.ioapics c >>= pure) = _
  rw [hs]
  rfl

theorem replays_redirLine {i : ℕ} {g : BitVec 32} (h : redirLine p i = some (g, p')) : Replays p p' := by
  rw [redirLine, ioapicSetIrqRedir] at h
  cases ho : p.madtIsos.find? (·.irqSrc = BitVec.ofNat 8 i) with
  | none =>
    rw [ho] at h
    obtain ⟨t, ht, he⟩ := Option.map_eq_some_iff.mp h
    obtain rfl := (Prod.mk.inj he).2
    exact replays_setGsiRedir ht
  | some o =>
    rw [ho] at h
    obtain ⟨t, ht, he⟩ := Option.map_eq_some_iff.mp h
    obtain rfl := (Prod.mk.inj he).2
    exact replays_setGsiRedir ht

theorem replays_firstLoop : ∀ {n i : ℕ} {p : Platform}, firstLoop n i p = some p' → Replays p p'
  | 0, _, p, h => by
    obtain rfl := Option.some.inj h
    exact .refl _
  | n + 1, i, p, h => by
    obtain ⟨⟨g, t⟩, ht, h⟩ := Option.bind_eq_some_iff.mp h
    exact (replays_redirLine ht).trans (replays_firstLoop h)

theorem replays_secondLoop {b : Mm.Bmap.Bitmap} :
    ∀ {n i : ℕ} {p : Platform}, secondLoop b n i p = some p' →
    Replays p p'
  | 0, _, p, h => by
    obtain rfl := Option.some.inj h
    exact .refl _
  | n + 1, i, p, h => by
    rw [secondLoop] at h
    split_ifs at h
    · obtain ⟨⟨g, t⟩, ht, h⟩ := Option.bind_eq_some_iff.mp h
      obtain ⟨cs, h1, h2⟩ := replays_secondLoop h
      exact (replays_redirLine ht).trans ⟨cs, h1, h2⟩
    · exact replays_secondLoop h

/-- **`apic_init`** does to the I/O APICs what its calls do. -/
theorem replays_apicInit {map : ℕ} (h : apicInit map p = some p') : Replays p p' := by
  rw [apicInit] at h
  split_ifs at h
  obtain ⟨t, ht, h⟩ := Option.bind_eq_some_iff.mp h
  obtain ⟨cs, h1, h2⟩ := replays_firstLoop ht
  obtain ⟨cs', h3, h4⟩ := replays_secondLoop h
  have hfirst : Replays p t := ⟨cs, h1, h2⟩
  exact hfirst.trans ⟨cs', h3, h4⟩

end Replay

/-- **The pin after the last interrupt**: if the last interrupt the lines use is odd, `apic_init`
leaves the entry of the next pin open, with vector 0. Its low half has the word that was meant for
the high half of the entry before, with the number of the local APIC in reserved bits; its high half,
with the destination, is as it was. -/
theorem apicInit_unmasks (map : ℕ) {p : Platform} {g i : ℕ} (ha : apicIsAvail p = true)
    (ho : Overrides p.madtIsos) (hd : p.ioapics.Distinct) (hp : FewPins p.ioapics)
    (hb : (p.ioapics.entry k).gsiBase = 0#32)
    (hf : ∀ i < 16, owner p.ioapics (target p.madtIsos i) = some k)
    (hi : i < 16) (hg : (target p.madtIsos i).toNat = g)
    (hmax : ∀ j < 16, (target p.madtIsos j).toNat ≤ g) (hodd : g + 1 = 2 * q) :
    ∃ p', apicInit map p = some p' ∧ ¬ Masked p'.ioapics k q ∧ vectorOf p'.ioapics k q = 0#8 ∧
      p'.ioapics.reg k (lowReg q) = idArg p <<< 24 ∧
      p'.ioapics.reg k (highReg q) = p.ioapics.reg k (highReg q) := by
  have hfound : Found p := fun j hj => by rw [hf j hj]; exact Option.some_ne_none k
  obtain ⟨p', hinit, hcalls⟩ := apicInit_calls map ha ho hfound
  obtain ⟨cs, hcs, hrun⟩ := replays_apicInit hinit
  obtain rfl := List.append_cancel_left (hcs.symm.trans hcalls)
  have hlines : ∀ j ∈ callLines p.madtIsos, j < 16 := by
    intro j hj
    rcases List.mem_append.mp hj with hj | hj
    · exact List.mem_range.mp hj
    · exact (mem_lines.mp hj).1
  set cs := (callLines p.madtIsos).map (callOf p.madtIsos (idArg p)) with hcsdef
  have hown : ∀ c ∈ cs, owner p.ioapics c.gsi = some k ∧ c.gsi.toNat ≤ g ∧ c.lapicId = idArg p := by
    intro c hc
    obtain ⟨j, hj, rfl⟩ := List.mem_map.mp hc
    exact ⟨hf j (hlines j hj), hmax j (hlines j hj), rfl⟩
  -- the call of line `i` is beside the pin, and no call is for it
  obtain ⟨c, hlast⟩ : ∃ c, (cs.filter (Beside p.ioapics k q ·)).getLast? = some c := by
    have hmem : callOf p.madtIsos (idArg p) i ∈ cs :=
      List.mem_map_of_mem (List.mem_append_left _ (List.mem_range.mpr hi))
    have hbeside : Beside p.ioapics k q (callOf p.madtIsos (idArg p) i) :=
      ⟨hf i hi, Or.inr ((congrArg (· + 1) hg).trans hodd)⟩
    refine ⟨_, List.getLast?_eq_some_getLast (List.ne_nil_of_mem (a := callOf p.madtIsos (idArg p) i) ?_)⟩
    exact List.mem_filter.mpr ⟨hmem, decide_eq_true hbeside⟩
  obtain ⟨-, hle, hid⟩ := hown c (List.mem_filter.mp (List.mem_of_getLast? hlast)).1
  have hk := (owner_spec (hf i hi)).1
  have hq : q < 120 := by
    have := (firstReg_toNat (c := callOf p.madtIsos (idArg p) i) hp hb (hf i hi)).1
    have : (target p.madtIsos i).toNat < 120 := this
    omega
  have hne : ∀ c ∈ cs, owner p.ioapics c.gsi ≠ none := fun c hc => by
    rw [(hown c hc).1]
    exact Option.some_ne_none k
  have hreg := lowReg_run hp hb hd hne hk hq hrun hlast
  have hhigh := highReg_run hp hb hd hne hk hq hrun fun c hc => by
    have := (hown c hc).2.1
    omega
  rw [if_neg (by omega), hid] at hreg
  obtain ⟨hopen, hvec⟩ := shifted_open (idArg p)
  refine ⟨p', hinit, ?_, ?_, hreg, hhigh⟩
  · rw [Masked, hreg, hopen]
    exact Bool.false_ne_true
  · rw [vectorOf, hreg, hvec]

/-- Without overrides the last interrupt is 15: the open pin is 8. -/
theorem apicInit_unmasks_none : ∃ p', apicInit 0xFFFF900000000000 (platform []) = some p' ∧
    ¬ Masked p'.ioapics 0 8 ∧ vectorOf p'.ioapics 0 8 = 0#8 := by
  obtain ⟨p', h1, h2, h3, -, -⟩ :=
    apicInit_unmasks 0xFFFF900000000000 (p := platform []) (k := 0) (q := 8) (g := 15)
    (i := 15) (by decide) ⟨by decide, by decide, by decide, by decide⟩ twoIoapics_distinct
      twoIoapics_fewPins rfl
    (by decide) (by decide) (by decide) (by decide) rfl
  exact ⟨p', h1, h2, h3⟩

end FusionCore.Dd.ApicTable
