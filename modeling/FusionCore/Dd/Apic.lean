import Mathlib.Tactic

/-! # The I/O APICs (`dd/apic/apic.c`, `dd/apic/apic.h`)

An I/O APIC has an index register (`IOREGSEL`) and a window (`IOWIN`) onto the register whose number is in
it; the version register is read-only. The bus has one I/O APIC behind each physical address, which
the driver reaches through the direct map; the MADT entries say where they are and which global
interrupts they serve. `log(PANIC, ..)` does not return: the result is `none`.

`IRQ_TO_IOREDTBL_REG` is a macro without parentheses around its argument: `ioredtbl` is what
`IRQ_TO_IOREDTBL_REG(gsi - base)` expands to. -/

namespace FusionCore.Dd.Apic

/-- An I/O APIC. -/
structure Ioapic where
  regsel : BitVec 32
  regs : BitVec 8 → BitVec 32

/-- The fields of `madt_ioapic_t` the driver reads. -/
structure MadtIoapic where
  ioapicAddr : BitVec 32
  gsiBase : BitVec 32
  deriving DecidableEq, Repr

/-- `madt_ioapics`, and the I/O APICs by their physical addresses. -/
structure Ioapics where
  madtIoapics : List MadtIoapic
  bus : BitVec 32 → Ioapic

/-- `madt_ioapics[i]`. -/
def Ioapics.entry (s : Ioapics) (i : ℕ) : MadtIoapic := s.madtIoapics.getD i ⟨0, 0⟩

/-- `madt_ioapics[i]->ioapic_addr`. -/
def Ioapics.addr (s : Ioapics) (i : ℕ) : BitVec 32 := (s.entry i).ioapicAddr

/-- A write to `IOREGSEL`. -/
def writeRegsel (s : Ioapics) (addr : BitVec 32) (v : BitVec 32) : Ioapics :=
  { s with bus := Function.update s.bus addr { s.bus addr with regsel := v } }

/-- A read of `IOWIN`. -/
def readWin (s : Ioapics) (addr : BitVec 32) : BitVec 32 :=
  (s.bus addr).regs ((s.bus addr).regsel.setWidth 8)

/-- A write to `IOWIN`, which the version register ignores. -/
def writeWin (s : Ioapics) (addr : BitVec 32) (v : BitVec 32) : Ioapics :=
  let d := s.bus addr
  let d' := if d.regsel.setWidth 8 = 1#8 then d
    else { d with regs := Function.update d.regs (d.regsel.setWidth 8) v }
  { s with bus := Function.update s.bus addr d' }

/-- `ioapic_read_reg`. -/
def ioapicReadReg (s : Ioapics) (i : ℕ) (reg : BitVec 8) : BitVec 32 × Ioapics :=
  let addr := s.addr i
  let s' := writeRegsel s addr (reg.setWidth 32)
  (readWin s' addr, s')

/-- `ioapic_write_reg`. -/
def ioapicWriteReg (s : Ioapics) (i : ℕ) (reg : BitVec 8) (data : BitVec 32) : Ioapics :=
  let addr := s.addr i
  writeWin (writeRegsel s addr (reg.setWidth 32)) addr data

/-- The field of the version register that `ioapic_get_max_redir` returns. -/
def maxRedirField (v : BitVec 32) : BitVec 32 := (v &&& 0xFF0000#32) >>> 16

/-- `ioapic_get_max_redir`; `IOAPICVER_REG` is `1`. -/
def ioapicGetMaxRedir (s : Ioapics) (i : ℕ) : BitVec 32 × Ioapics :=
  let r := ioapicReadReg s i 1#8
  (maxRedirField r.1, r.2)

/-- The loop of `ioapic_i_from_gsi` with `k` iterations left. -/
def fromGsi (gsi : BitVec 32) : ℕ → ℕ → Ioapics → Option ℕ × Ioapics
  | 0, _, s => (none, s)
  | k + 1, i, s =>
    let startGsi := (s.entry i).gsiBase
    let r := ioapicGetMaxRedir s i
    let endGsi := startGsi + r.1
    if startGsi ≤ gsi ∧ gsi < endGsi then (some i, r.2) else fromGsi gsi k (i + 1) r.2

/-- `ioapic_i_from_gsi`. -/
def ioapicIFromGsi (s : Ioapics) (gsi : BitVec 32) : Option ℕ × Ioapics :=
  fromGsi gsi s.madtIoapics.length 0 s

/-- The entry `ioapic_set_gsi_redir` builds. -/
def redirectEntry (lapicId : BitVec 32) (vector : BitVec 8) (flags : BitVec 16) (mask : Bool) :
    BitVec 64 :=
  let e := vector.setWidth 64
  let e := if flags &&& 2#16 ≠ 0 then e ||| (1#64 <<< 13) else e
  let e := if flags &&& 8#16 ≠ 0 then e ||| (1#64 <<< 15) else e
  let e := if mask then e ||| (1#64 <<< 16) else e &&& ~~~ (1#64 <<< 16)
  e ||| (lapicId.setWidth 64 <<< 56)

/-- `IRQ_TO_IOREDTBL_REG(gsi - gsi_base)`, expanded. -/
def ioredtbl (gsi gsiBase : BitVec 32) : BitVec 32 := (gsi - gsiBase * 2#32) + 0x10#32

/-- `ioapic_set_gsi_redir`. -/
def ioapicSetGsiRedir (s : Ioapics) (lapicId : BitVec 32) (vector : BitVec 8) (gsi : BitVec 32)
    (flags : BitVec 16) (mask : Bool) : Option Ioapics :=
  let e := redirectEntry lapicId vector flags mask
  match ioapicIFromGsi s gsi with
  | (none, _) => none
  | (some i, s) =>
    let r := ioredtbl gsi (s.entry i).gsiBase
    let s := ioapicWriteReg s i (r.setWidth 8) (e.setWidth 32)
    some (ioapicWriteReg s i ((r + 1#32).setWidth 8) ((e >>> 32).setWidth 32))

/-! ### The registers -/

/-- Register `r` of the I/O APIC of entry `i`. -/
def Ioapics.reg (s : Ioapics) (i : ℕ) (r : BitVec 8) : BitVec 32 := (s.bus (s.addr i)).regs r

/-- The MADT entries name different I/O APICs. -/
def Ioapics.Distinct (s : Ioapics) : Prop := (s.madtIoapics.map (·.ioapicAddr)).Nodup

/-- The two states differ at most in the index registers. -/
structure SameRegs (s s' : Ioapics) : Prop where
  madt : s'.madtIoapics = s.madtIoapics
  regs : ∀ a, (s'.bus a).regs = (s.bus a).regs

theorem SameRegs.refl (s : Ioapics) : SameRegs s s := ⟨rfl, fun _ => rfl⟩

theorem SameRegs.trans {s s' s'' : Ioapics} (h : SameRegs s s') (h' : SameRegs s' s'') : SameRegs s s'' :=
  ⟨h'.madt.trans h.madt, fun a => (h'.regs a).trans (h.regs a)⟩

theorem entry_of_madt {s s' : Ioapics} (h : s'.madtIoapics = s.madtIoapics) (i : ℕ) :
    s'.entry i = s.entry i := by rw [Ioapics.entry, Ioapics.entry, h]

theorem addr_of_madt {s s' : Ioapics} (h : s'.madtIoapics = s.madtIoapics) (i : ℕ) :
    s'.addr i = s.addr i := by rw [Ioapics.addr, Ioapics.addr, entry_of_madt h]

theorem SameRegs.reg {s s' : Ioapics} (h : SameRegs s s') (i : ℕ) (r : BitVec 8) :
    s'.reg i r = s.reg i r := by
  rw [Ioapics.reg, Ioapics.reg, addr_of_madt h.madt, h.regs]

theorem sameRegs_writeRegsel (s : Ioapics) (a : BitVec 32) (v : BitVec 32) :
    SameRegs s (writeRegsel s a v) := by
  refine ⟨rfl, fun b => ?_⟩
  by_cases hb : b = a
  · subst hb
    simp [writeRegsel]
  · simp [writeRegsel, Function.update_of_ne hb]

theorem readWin_writeRegsel (s : Ioapics) (a : BitVec 32) (r : BitVec 8) :
    readWin (writeRegsel s a (r.setWidth 32)) a = (s.bus a).regs r := by
  have hw : (r.setWidth 32).setWidth 8 = r := by simp
  simp only [readWin, writeRegsel, Function.update_self, hw]

theorem writeWin_writeRegsel (s : Ioapics) (a : BitVec 32) (r : BitVec 8) (v : BitVec 32)
    (b : BitVec 32) : ((writeWin (writeRegsel s a (r.setWidth 32)) a v).bus b).regs =
      if b = a ∧ r ≠ 1#8 then Function.update (s.bus a).regs r v else (s.bus b).regs := by
  have hw : (r.setWidth 32).setWidth 8 = r := by simp
  by_cases hb : b = a
  · subst hb
    by_cases hr : r = 1#8
    · rw [if_neg fun h => h.2 hr]
      subst hr
      simp [writeWin, writeRegsel]
    · simp only [writeWin, writeRegsel, Function.update_self, hw, hr, if_false, ne_eq, not_false_eq_true,
        and_self, if_true]
  · simp only [writeWin, writeRegsel, Function.update_of_ne hb, hb, false_and, if_false]

/-- **Reading a register.** -/
theorem ioapicReadReg_spec (s : Ioapics) (i : ℕ) (r : BitVec 8) :
    (ioapicReadReg s i r).1 = s.reg i r ∧ SameRegs s (ioapicReadReg s i r).2 := by
  have hs := sameRegs_writeRegsel s (s.addr i) (r.setWidth 32)
  exact ⟨readWin_writeRegsel s (s.addr i) r, hs⟩

theorem Ioapics.Distinct.addr_ne {s : Ioapics} (hd : s.Distinct) {i j : ℕ} (hi : i < s.madtIoapics.length)
    (hj : j < s.madtIoapics.length) (hij : i ≠ j) : s.addr i ≠ s.addr j := by
  intro h
  have he : (s.entry i).ioapicAddr = (s.entry j).ioapicAddr := h
  have hget : ∀ k (hk : k < s.madtIoapics.length), s.entry k = s.madtIoapics[k] := fun k hk => by
    rw [Ioapics.entry, List.getD_eq_getElem?_getD, List.getElem?_eq_getElem hk, Option.getD_some]
  rw [hget i hi, hget j hj] at he
  have heq : s.madtIoapics[i] = s.madtIoapics[j] :=
    List.inj_on_of_nodup_map hd (List.getElem_mem hi) (List.getElem_mem hj) he
  exact hij ((List.Nodup.of_map _ hd).getElem_inj_iff.mp heq)

/-- **Writing a register** changes this register only. -/
theorem ioapicWriteReg_spec {s : Ioapics} (hd : s.Distinct) {i : ℕ} (hi : i < s.madtIoapics.length)
    {r : BitVec 8} (hr : r ≠ 1#8) (v : BitVec 32) :
    (ioapicWriteReg s i r v).madtIoapics = s.madtIoapics ∧
    ∀ j < s.madtIoapics.length, ∀ r', (ioapicWriteReg s i r v).reg j r' =
      if j = i ∧ r' = r then v else s.reg j r' := by
  have hm : (ioapicWriteReg s i r v).madtIoapics = s.madtIoapics := rfl
  refine ⟨hm, fun j hj r' => ?_⟩
  have hb := congrFun (writeWin_writeRegsel s (s.addr i) r v (s.addr j)) r'
  rw [Ioapics.reg, addr_of_madt hm]
  refine hb.trans ?_
  by_cases hji : j = i
  · subst hji
    rw [if_pos ⟨rfl, hr⟩, Function.update_apply]
    simp [Ioapics.reg]
  · rw [if_neg fun h => hd.addr_ne hj hi hji h.1, if_neg fun h => hji h.1, Ioapics.reg]

theorem version_ioapicWriteReg (s : Ioapics) (i : ℕ) (r : BitVec 8) (v : BitVec 32) (j : ℕ) :
    (ioapicWriteReg s i r v).reg j 1#8 = s.reg j 1#8 := by
  have hb := congrFun (writeWin_writeRegsel s (s.addr i) r v (s.addr j)) 1#8
  refine hb.trans ?_
  rw [Ioapics.reg]
  split_ifs with h
  · rw [Function.update_of_ne h.2.symm, h.1]
  · rfl

/-! ### The I/O APIC of a global interrupt -/

/-- The test `ioapic_i_from_gsi` makes for entry `i`. -/
def Ioapics.Serves (s : Ioapics) (gsi : BitVec 32) (i : ℕ) : Prop :=
  (s.entry i).gsiBase ≤ gsi ∧ gsi < (s.entry i).gsiBase + maxRedirField (s.reg i 1#8)

instance (s : Ioapics) (gsi : BitVec 32) (i : ℕ) : Decidable (s.Serves gsi i) := by
  unfold Ioapics.Serves; infer_instance

theorem SameRegs.serves {s s' : Ioapics} (h : SameRegs s s') (gsi : BitVec 32) (i : ℕ) :
    s'.Serves gsi i ↔ s.Serves gsi i := by
  rw [Ioapics.Serves, Ioapics.Serves, entry_of_madt h.madt, h.reg]

theorem fromGsi_spec (gsi : BitVec 32) : ∀ (k i : ℕ) (s : Ioapics),
    SameRegs s (fromGsi gsi k i s).2 ∧
    ((∃ j, i ≤ j ∧ j < i + k ∧ s.Serves gsi j ∧ (∀ j', i ≤ j' → j' < j → ¬ s.Serves gsi j') ∧
      (fromGsi gsi k i s).1 = some j) ∨
    ((∀ j, i ≤ j → j < i + k → ¬ s.Serves gsi j) ∧ (fromGsi gsi k i s).1 = none))
  | 0, i, s => ⟨.refl s, Or.inr ⟨fun j h1 h2 => by omega, rfl⟩⟩
  | k + 1, i, s => by
    obtain ⟨h1, h2⟩ := ioapicReadReg_spec s i 1#8
    have hcond : ((s.entry i).gsiBase ≤ gsi ∧
        gsi < (s.entry i).gsiBase + (ioapicGetMaxRedir s i).1) ↔ s.Serves gsi i := by
      rw [ioapicGetMaxRedir, h1, Ioapics.Serves]
    have hs : SameRegs s (ioapicGetMaxRedir s i).2 := h2
    rw [fromGsi]
    by_cases hc : s.Serves gsi i
    · rw [if_pos (hcond.mpr hc)]
      exact ⟨hs, Or.inl ⟨i, le_rfl, by omega, hc, fun j' h3 h4 => by omega, rfl⟩⟩
    · rw [if_neg fun h => hc (hcond.mp h)]
      have hfirst : ∀ {j}, i ≤ j → (i + 1 ≤ j → ¬ s.Serves gsi j) → ¬ s.Serves gsi j := by
        intro j h3 h4
        rcases Nat.eq_or_lt_of_le h3 with rfl | h3
        · exact hc
        · exact h4 h3
      obtain ⟨h3, h4⟩ := fromGsi_spec gsi k (i + 1) (ioapicGetMaxRedir s i).2
      simp only [hs.serves] at h4
      refine ⟨hs.trans h3, ?_⟩
      rcases h4 with ⟨j, h5, h6, h7, h8, h9⟩ | ⟨h5, h6⟩
      · exact Or.inl ⟨j, by omega, by omega, h7,
          fun j' h10 h11 => hfirst h10 fun h12 => h8 j' h12 h11, h9⟩
      · exact Or.inr ⟨fun j h7 h8 => hfirst h7 fun h9 => h5 j h9 (by omega), h6⟩

/-- **The search**: the first entry that serves the interrupt, and no register changed. -/
theorem ioapicIFromGsi_spec (s : Ioapics) (gsi : BitVec 32) :
    SameRegs s (ioapicIFromGsi s gsi).2 ∧
    ((∃ j < s.madtIoapics.length, s.Serves gsi j ∧ (∀ j' < j, ¬ s.Serves gsi j') ∧
      (ioapicIFromGsi s gsi).1 = some j) ∨
    ((∀ j < s.madtIoapics.length, ¬ s.Serves gsi j) ∧ (ioapicIFromGsi s gsi).1 = none)) := by
  obtain ⟨h1, h2⟩ := fromGsi_spec gsi s.madtIoapics.length 0 s
  refine ⟨h1, ?_⟩
  rcases h2 with ⟨j, -, h3, h4, h5, h6⟩ | ⟨h3, h4⟩
  · exact Or.inl ⟨j, by omega, h4, fun j' h => h5 j' (Nat.zero_le _) h, h6⟩
  · exact Or.inr ⟨fun j h => h3 j (Nat.zero_le _) (by omega), h4⟩

end FusionCore.Dd.Apic
