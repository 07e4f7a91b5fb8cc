import FusionCore.Dd.ApicInit
import FusionCore.Mm.BmapLaw

/-! # Which redirection entry wins

`apic_init` makes a call of `ioapic_set_gsi_redir` for each of the 16 lines and then one more for
each line that is not skipped: line `i` is skipped if a line before it, itself not skipped, has used
the interrupt `i`. `OverridesWin` says that for each interrupt of an override the last call is the
override's.

If the interrupt `g` of an override of line `i` is a line too and has no override, both lines use it,
and the override wins exactly if line `i` is not skipped. A line is skipped exactly if the longest
chain of overrides `j → … → i` with rising numbers has an odd number of links. -/

namespace FusionCore.Dd.ApicInitSpec

open FusionCore.Lib.ByteMem FusionCore.Mm.Defs FusionCore.Mm.Bmap FusionCore.Mm.BmapLaw
open FusionCore.Dd.Apic FusionCore.Dd.ApicSpec FusionCore.Dd.ApicInit

/-- The overrides: at most one for a line and for an interrupt, the lines below 16, the interrupts below
128. -/
structure Overrides (isos : List MadtIso) : Prop where
  srcs : (isos.map (·.irqSrc)).Nodup
  gsis : (isos.map (·.gsi)).Nodup
  src_lt : ∀ o ∈ isos, o.irqSrc.toNat < 16
  gsi_lt : ∀ o ∈ isos, o.gsi.toNat < 128

/-- The last call for an interrupt. -/
def lastCall (calls : List RedirCall) (g : BitVec 32) : Option RedirCall :=
  (calls.filter (·.gsi = g)).getLast?

/-- **The overrides win**, and the lines that have nothing to do with one keep their own interrupt. -/
structure OverridesWin (isos : List MadtIso) (calls : List RedirCall) : Prop where
  overrides : ∀ o ∈ isos, ∃ c, lastCall calls o.gsi = some c ∧ c.vector = 32#8 + o.irqSrc ∧
    c.flags = o.flags
  identity : ∀ i < 16, (∀ o ∈ isos, o.irqSrc.toNat ≠ i) → (∀ o ∈ isos, o.gsi.toNat ≠ i) →
    ∃ c, lastCall calls (BitVec.ofNat 32 i) = some c ∧ c.vector = BitVec.ofNat 8 (32 + i) ∧ c.flags = 0#16

/-- A chain of `n` overrides with rising numbers that ends in `i`. -/
inductive RisingChain (isos : List MadtIso) : ℕ → ℕ → Prop
  | nil (i : ℕ) : RisingChain isos 0 i
  | snoc {o : MadtIso} {n : ℕ} (ho : o ∈ isos) (hlt : o.irqSrc.toNat < o.gsi.toNat)
      (h : RisingChain isos n o.irqSrc.toNat) : RisingChain isos (n + 1) o.gsi.toNat

/-- **The condition**: for an override to a line without one, the longest chain to its own line is
even. -/
def ChainsEven (isos : List MadtIso) : Prop :=
  ∀ o ∈ isos, o.gsi.toNat < 16 → (∀ o' ∈ isos, o'.irqSrc.toNat ≠ o.gsi.toNat) →
    ∀ n, RisingChain isos n o.irqSrc.toNat → ¬ RisingChain isos (n + 1) o.irqSrc.toNat → Even n

/-! ### The interrupt of a line -/

/-- The override of a line, as `ioapic_set_irq_redir` finds it. -/
def isoOf (isos : List MadtIso) (i : ℕ) : Option MadtIso := isos.find? (·.irqSrc = BitVec.ofNat 8 i)

/-- The interrupt of a line. -/
def target (isos : List MadtIso) (i : ℕ) : BitVec 32 :=
  match isoOf isos i with
  | some o => o.gsi
  | none => (BitVec.ofNat 8 i).setWidth 32

/-- The flags for a line. -/
def flagsOf (isos : List MadtIso) (i : ℕ) : BitVec 16 :=
  match isoOf isos i with
  | some o => o.flags
  | none => 0#16

/-- The call for a line. -/
def callOf (isos : List MadtIso) (lapicId : BitVec 32) (i : ℕ) : RedirCall :=
  ⟨lapicId, BitVec.ofNat 8 (i + 32), target isos i, flagsOf isos i, true⟩

/-- The lines among the first `n` that the second loop does not skip. -/
def lines (isos : List MadtIso) : ℕ → List ℕ
  | 0 => []
  | n + 1 => if ∃ j ∈ lines isos n, (target isos j).toNat = n then lines isos n else lines isos n ++ [n]

/-- The second loop skips line `i`. -/
def Skipped (isos : List MadtIso) (i : ℕ) : Prop := ∃ j ∈ lines isos i, (target isos j).toNat = i

section Lines
variable {isos : List MadtIso}

theorem lines_of_skipped {n : ℕ} (hs : Skipped isos n) : lines isos (n + 1) = lines isos n := if_pos hs

theorem lines_of_not_skipped {n : ℕ} (hs : ¬ Skipped isos n) : lines isos (n + 1) = lines isos n ++ [n] :=
  if_neg hs

theorem mem_lines {n j : ℕ} : j ∈ lines isos n ↔ j < n ∧ ¬ Skipped isos j := by
  induction n with
  | zero => simp [lines]
  | succ n ih =>
    by_cases hs : Skipped isos n
    · rw [lines_of_skipped hs, ih]
      constructor
      · rintro ⟨h1, h2⟩
        exact ⟨by omega, h2⟩
      · rintro ⟨h1, h2⟩
        have hne : j ≠ n := fun h => h2 (h ▸ hs)
        exact ⟨by omega, h2⟩
    · rw [lines_of_not_skipped hs, List.mem_append, ih, List.mem_singleton]
      constructor
      · rintro (⟨h1, h2⟩ | rfl)
        · exact ⟨by omega, h2⟩
        · exact ⟨by omega, hs⟩
      · rintro ⟨h1, h2⟩
        rcases Nat.lt_succ_iff_lt_or_eq.mp h1 with h1 | rfl
        · exact Or.inl ⟨h1, h2⟩
        · exact Or.inr rfl

theorem lines_sorted (n : ℕ) : (lines isos n).Pairwise (· < ·) := by
  induction n with
  | zero => exact List.Pairwise.nil
  | succ n ih =>
    rw [lines]
    split_ifs
    · exact ih
    · refine List.pairwise_append.mpr ⟨ih, List.pairwise_singleton _ _, fun j hj k hk => ?_⟩
      rw [List.mem_singleton.mp hk]
      exact (mem_lines.mp hj).1

variable (h : Overrides isos)
include h

theorem isoOf_src {o : MadtIso} (ho : o ∈ isos) : isoOf isos o.irqSrc.toNat = some o := by
  have hself : BitVec.ofNat 8 o.irqSrc.toNat = o.irqSrc := by simp
  have hsome : (isoOf isos o.irqSrc.toNat).isSome := by
    rw [isoOf, List.find?_isSome]
    exact ⟨o, ho, by simp⟩
  obtain ⟨o', ho'⟩ := Option.isSome_iff_exists.mp hsome
  have hsrc : o'.irqSrc = o.irqSrc := by
    have := List.find?_some ho'
    simpa [hself] using this
  rw [ho', List.inj_on_of_nodup_map h.srcs (List.mem_of_find?_eq_some ho') ho hsrc]

omit h in
theorem isoOf_free {i : ℕ} (hi : i < 16) (hfree : ∀ o ∈ isos, o.irqSrc.toNat ≠ i) :
    isoOf isos i = none := by
  rw [isoOf, List.find?_eq_none]
  intro o ho heq
  refine hfree o ho ?_
  rw [of_decide_eq_true heq, BitVec.toNat_ofNat]
  omega

theorem target_src {o : MadtIso} (ho : o ∈ isos) :
    target isos o.irqSrc.toNat = o.gsi ∧ flagsOf isos o.irqSrc.toNat = o.flags := by
  rw [target, flagsOf, isoOf_src h ho]
  exact ⟨rfl, rfl⟩

omit h in
theorem target_free {i : ℕ} (hi : i < 16) (hfree : ∀ o ∈ isos, o.irqSrc.toNat ≠ i) :
    (target isos i).toNat = i ∧ flagsOf isos i = 0#16 := by
  rw [target, flagsOf, isoOf_free hi hfree]
  refine ⟨?_, rfl⟩
  rw [BitVec.toNat_setWidth, BitVec.toNat_ofNat]
  omega

theorem line_cases {i : ℕ} (hi : i < 16) : (∃ o ∈ isos, o.irqSrc.toNat = i ∧ target isos i = o.gsi) ∨
    ((∀ o ∈ isos, o.irqSrc.toNat ≠ i) ∧ (target isos i).toNat = i) := by
  by_cases hfree : ∀ o ∈ isos, o.irqSrc.toNat ≠ i
  · exact Or.inr ⟨hfree, (target_free hi hfree).1⟩
  · push Not at hfree
    obtain ⟨o, ho, rfl⟩ := hfree
    exact Or.inl ⟨o, ho, rfl, (target_src h ho).1⟩

theorem target_lt {i : ℕ} (hi : i < 16) : (target isos i).toNat < 128 := by
  rcases line_cases h hi with ⟨o, ho, -, ht⟩ | ⟨-, ht⟩
  · rw [ht]
    exact h.gsi_lt o ho
  · omega

theorem target_eq_gsi {o : MadtIso} (ho : o ∈ isos) {i : ℕ} (hi : i < 16) (ht : target isos i = o.gsi) :
    i = o.irqSrc.toNat ∨ (i = o.gsi.toNat ∧ ∀ o' ∈ isos, o'.irqSrc.toNat ≠ i) := by
  rcases line_cases h hi with ⟨o', ho', hsrc, ht'⟩ | ⟨hfree, ht'⟩
  · have heq : o' = o := List.inj_on_of_nodup_map h.gsis ho' ho (ht'.symm.trans ht)
    exact Or.inl (heq ▸ hsrc.symm)
  · exact Or.inr ⟨by rw [← ht, ht'], hfree⟩

end Lines

/-! ### Chains -/

section Chains
variable {isos : List MadtIso} {n k i : ℕ}

theorem RisingChain.pred (h : RisingChain isos (n + 1) i) : RisingChain isos n i := by
  induction n generalizing i with
  | zero => exact .nil i
  | succ n ih =>
    cases h with
    | snoc ho hlt h => exact .snoc ho hlt (ih h)

theorem RisingChain.of_le (h : RisingChain isos n i) (hk : k ≤ n) : RisingChain isos k i := by
  induction n with
  | zero =>
    obtain rfl := Nat.le_zero.mp hk
    exact h
  | succ n ih =>
    rcases Nat.lt_or_eq_of_le hk with hlt | rfl
    · exact ih h.pred (by omega)
    · exact h

/-- The longest chain to `i` has `n` links. -/
def Longest (isos : List MadtIso) (n i : ℕ) : Prop := RisingChain isos n i ∧ ¬ RisingChain isos (n + 1) i

theorem Longest.unique (h : Longest isos n i) (h' : Longest isos k i) : n = k := by
  rcases Nat.lt_trichotomy n k with hlt | rfl | hlt
  · exact absurd (h'.1.of_le hlt) h.2
  · rfl
  · exact absurd (h.1.of_le hlt) h'.2

variable (h : Overrides isos)
include h

/-- **A line is skipped** exactly if its longest chain is odd. -/
theorem skipped_iff (i : ℕ) (hi : i < 16) : ∃ n, Longest isos n i ∧ (Skipped isos i ↔ ¬ Even n) := by
  induction i using Nat.strong_induction_on with
  | _ i ih =>
    by_cases hpred : ∃ o ∈ isos, o.gsi.toNat = i ∧ o.irqSrc.toNat < i
    · -- the chains to `i` are those to the line of its override, with one more link
      obtain ⟨o, ho, rfl, hlt⟩ := hpred
      obtain ⟨n, hn, hskip⟩ := ih _ hlt (by omega)
      have hsnoc : ∀ k, RisingChain isos (k + 1) o.gsi.toNat → RisingChain isos k o.irqSrc.toNat := by
        intro k hk
        generalize hg : o.gsi.toNat = g at hk
        cases hk with
        | snoc ho' _ hk =>
          obtain rfl := List.inj_on_of_nodup_map h.gsis ho ho' (BitVec.eq_of_toNat_eq hg)
          exact hk
      refine ⟨n + 1, ⟨.snoc ho hlt hn.1, fun hk => hn.2 (hsnoc _ hk)⟩, ?_⟩
      have hsrc : Skipped isos o.gsi.toNat ↔ ¬ Skipped isos o.irqSrc.toNat := by
        have htarget := (target_src h ho).1
        constructor
        · rintro ⟨j, hj, ht⟩
          obtain ⟨hjlt, hjs⟩ := mem_lines.mp hj
          rcases target_eq_gsi h ho (by omega) (BitVec.eq_of_toNat_eq ht) with rfl | ⟨rfl, -⟩
          · exact hjs
          · omega
        · intro hns
          exact ⟨o.irqSrc.toNat, mem_lines.mpr ⟨hlt, hns⟩, by rw [htarget]⟩
      rw [hsrc, hskip, Nat.even_add_one]
    · refine ⟨0, ⟨.nil i, fun hk => ?_⟩, ?_⟩
      · generalize hz : 0 + 1 = z at hk
        cases hk with
        | nil => omega
        | snoc ho hlt _ => exact hpred ⟨_, ho, rfl, hlt⟩
      · refine iff_of_false ?_ (by simp)
        rintro ⟨j, hj, ht⟩
        have hjlt := (mem_lines.mp hj).1
        rcases line_cases h (by omega : j < 16) with ⟨o, ho, rfl, hto⟩ | ⟨-, hto⟩
        · exact hpred ⟨o, ho, by rw [← hto, ht], hjlt⟩
        · omega

end Chains

/-! ### The last line for an interrupt -/

/-- The last line for an interrupt, in a list of lines. -/
def lastLine (isos : List MadtIso) (ls : List ℕ) (g : BitVec 32) : Option ℕ :=
  (ls.filter (target isos · = g)).getLast?

section Last
variable {isos : List MadtIso} {g : BitVec 32}

theorem lastCall_map (lapicId : BitVec 32) (ls : List ℕ) :
    lastCall (ls.map (callOf isos lapicId)) g = (lastLine isos ls g).map (callOf isos lapicId) := by
  rw [lastCall, lastLine, List.filter_map, List.getLast?_map]
  rfl

theorem lastLine_append (ls ls' : List ℕ) :
    lastLine isos (ls ++ ls') g = (lastLine isos ls' g).or (lastLine isos ls g) := by
  rw [lastLine, List.filter_append, List.getLast?_append]
  rfl

theorem lastLine_eq_some {ls : List ℕ} (hs : ls.Pairwise (· < ·)) {i : ℕ} (hi : i ∈ ls)
    (ht : target isos i = g) (hmax : ∀ j ∈ ls, target isos j = g → j ≤ i) :
      lastLine isos ls g = some i := by
  have hsort := hs.filter (target isos · = g)
  have hmem : i ∈ ls.filter (target isos · = g) := List.mem_filter.mpr ⟨hi, decide_eq_true ht⟩
  rcases List.eq_nil_or_concat (ls.filter (target isos · = g)) with hnil | ⟨init, k, hk⟩
  · rw [hnil] at hmem
    exact absurd hmem (by simp)
  · rw [List.concat_eq_append] at hk
    rw [hk] at hsort hmem
    have hlast : k ∈ ls.filter (target isos · = g) := by rw [hk]; simp
    have hle := hmax k (List.mem_filter.mp hlast).1 (of_decide_eq_true (List.mem_filter.mp hlast).2)
    rw [lastLine, hk, List.getLast?_append, List.getLast?_singleton, Option.some_or]
    rcases List.mem_append.mp hmem with hinit | hself
    · have hlt := (List.pairwise_append.mp hsort).2.2 i hinit k (by simp)
      omega
    · rw [List.mem_singleton.mp hself]

theorem lastLine_eq_none {ls : List ℕ} (hno : ∀ j ∈ ls, target isos j ≠ g) :
    lastLine isos ls g = none := by
  rw [lastLine, List.getLast?_eq_none_iff, List.filter_eq_nil_iff]
  intro j hj ht
  exact hno j hj (of_decide_eq_true ht)

/-- The lines in the order of the calls. -/
def callLines (isos : List MadtIso) : List ℕ := List.range 16 ++ lines isos 16

theorem lastLine_of_unique {i : ℕ} (hi : i < 16) (ht : target isos i = g)
    (huniq : ∀ j < 16, target isos j = g → j = i) : lastLine isos (callLines isos) g = some i := by
  have hrange : lastLine isos (List.range 16) g = some i :=
    lastLine_eq_some List.pairwise_lt_range (List.mem_range.mpr hi) ht
      fun j hj htj => (huniq j (List.mem_range.mp hj) htj).le
  rw [callLines, lastLine_append, hrange]
  by_cases hs : Skipped isos i
  · rw [lastLine_eq_none fun j hj htj => ?_, Option.none_or]
    obtain ⟨h1, h2⟩ := mem_lines.mp hj
    exact h2 (huniq j h1 htj ▸ hs)
  · rw [lastLine_eq_some (lines_sorted 16) (mem_lines.mpr ⟨hi, hs⟩) ht
      fun j hj htj => (huniq j (mem_lines.mp hj).1 htj).le, Option.some_or]

variable (h : Overrides isos) {o : MadtIso} (ho : o ∈ isos)
include h ho

/-- **An override whose line is not skipped** wins: another line with its interrupt comes before it, or is
skipped because of it. -/
theorem lastLine_not_skipped (hs : ¬ Skipped isos o.irqSrc.toNat) :
    lastLine isos (callLines isos) o.gsi = some o.irqSrc.toNat := by
  have hsrc := h.src_lt o ho
  have htarget := (target_src h ho).1
  have hmem := mem_lines.mpr ⟨hsrc, hs⟩
  rw [callLines, lastLine_append, lastLine_eq_some (lines_sorted 16) hmem htarget fun j hj htj => ?_,
    Option.some_or]
  obtain ⟨hj16, hjs⟩ := mem_lines.mp hj
  rcases target_eq_gsi h ho hj16 htj with rfl | ⟨rfl, -⟩
  · exact le_rfl
  · by_contra hlt
    exact hjs ⟨o.irqSrc.toNat, mem_lines.mpr ⟨by omega, hs⟩, by rw [htarget]⟩

/-- **An override to a line without one** loses to this line if its own is skipped. -/
theorem lastLine_skipped (hs : Skipped isos o.irqSrc.toNat) (hg : o.gsi.toNat < 16)
    (hfree : ∀ o' ∈ isos, o'.irqSrc.toNat ≠ o.gsi.toNat) :
    lastLine isos (callLines isos) o.gsi = some o.gsi.toNat := by
  have hown : target isos o.gsi.toNat = o.gsi := BitVec.eq_of_toNat_eq (target_free hg hfree).1
  have hns : ¬ Skipped isos o.gsi.toNat := by
    rintro ⟨j, hj, htj⟩
    obtain ⟨h1, h2⟩ := mem_lines.mp hj
    rcases target_eq_gsi h ho (by omega) (BitVec.eq_of_toNat_eq htj) with rfl | ⟨rfl, -⟩
    · exact h2 hs
    · omega
  rw [callLines, lastLine_append, lastLine_eq_some (lines_sorted 16) (mem_lines.mpr ⟨hg, hns⟩) hown
    fun j hj htj => ?_, Option.some_or]
  obtain ⟨h1, h2⟩ := mem_lines.mp hj
  rcases target_eq_gsi h ho h1 htj with rfl | ⟨rfl, -⟩
  · exact absurd hs h2
  · exact le_rfl

end Last

/-! ### The overrides -/

theorem vector_src (o : MadtIso) : BitVec.ofNat 8 (o.irqSrc.toNat + 32) = 32#8 + o.irqSrc := by
  refine BitVec.eq_of_toNat_eq ?_
  rw [BitVec.toNat_ofNat, BitVec.toNat_add, Nat.add_comm]
  rfl

section Win
variable {isos : List MadtIso} (h : Overrides isos) (lapicId : BitVec 32)
include h

theorem wins_of_lastLine {o : MadtIso} (ho : o ∈ isos)
    (hl : lastLine isos (callLines isos) o.gsi = some o.irqSrc.toNat) :
    ∃ c, lastCall ((callLines isos).map (callOf isos lapicId)) o.gsi = some c ∧
      c.vector = 32#8 + o.irqSrc ∧ c.flags = o.flags := by
  refine ⟨callOf isos lapicId o.irqSrc.toNat, ?_, vector_src o, (target_src h ho).2⟩
  rw [lastCall_map, hl, Option.map_some]

theorem wins_identity {i : ℕ} (hi : i < 16) (hfree : ∀ o ∈ isos, o.irqSrc.toNat ≠ i)
    (hgsi : ∀ o ∈ isos, o.gsi.toNat ≠ i) :
    ∃ c, lastCall ((callLines isos).map (callOf isos lapicId)) (BitVec.ofNat 32 i) = some c ∧
      c.vector = BitVec.ofNat 8 (32 + i) ∧ c.flags = 0#16 := by
  obtain ⟨hown, hflags⟩ := target_free hi hfree
  have hofNat : (BitVec.ofNat 32 i).toNat = i := by
    rw [BitVec.toNat_ofNat]
    omega
  have hl : lastLine isos (callLines isos) (BitVec.ofNat 32 i) = some i := by
    refine lastLine_of_unique hi (BitVec.eq_of_toNat_eq (hown.trans hofNat.symm)) fun j hj htj => ?_
    rcases line_cases h hj with ⟨o, ho, -, hto⟩ | ⟨-, hto⟩
    · exact absurd (by rw [← hto, htj, hofNat]) (hgsi o ho)
    · rw [← hto, htj, hofNat]
  refine ⟨callOf isos lapicId i, ?_, by rw [Nat.add_comm]; rfl, hflags⟩
  rw [lastCall_map, hl, Option.map_some]

theorem chainsEven_iff : ChainsEven isos ↔ ∀ o ∈ isos, o.gsi.toNat < 16 →
    (∀ o' ∈ isos, o'.irqSrc.toNat ≠ o.gsi.toNat) → ¬ Skipped isos o.irqSrc.toNat := by
  refine forall₄_congr fun o ho _ _ => ?_
  obtain ⟨n, hn, hskip⟩ := skipped_iff h _ (h.src_lt o ho)
  constructor
  · intro heven hs
    exact hskip.mp hs (heven n hn.1 hn.2)
  · intro hs k hk hk'
    rw [Longest.unique ⟨hk, hk'⟩ hn]
    exact not_not.mp fun hodd => hs (hskip.mpr hodd)

/-- **The overrides win** exactly if the chains are even. -/
theorem overridesWin_iff :
    OverridesWin isos ((callLines isos).map (callOf isos lapicId)) ↔ ChainsEven isos := by
  rw [chainsEven_iff h]
  constructor
  · intro hwin o ho hg hfree hs
    obtain ⟨c, hlast, hvec, -⟩ := hwin.overrides o ho
    rw [lastCall_map, lastLine_skipped h ho hs hg hfree, Option.map_some] at hlast
    obtain rfl := Option.some.inj hlast
    have hsrc := h.src_lt o ho
    have hnat := congrArg BitVec.toNat (hvec.trans (vector_src o).symm)
    rw [callOf, BitVec.toNat_ofNat, BitVec.toNat_ofNat] at hnat
    exact hfree o ho (by omega)
  · intro hns
    refine ⟨fun o ho => ?_, fun i hi hfree hgsi => wins_identity h lapicId hi hfree hgsi⟩
    by_cases hs : Skipped isos o.irqSrc.toNat
    · -- no other line uses its interrupt
      refine wins_of_lastLine h lapicId ho
        (lastLine_of_unique (h.src_lt o ho) (target_src h ho).1 fun j hj htj => ?_)
      rcases target_eq_gsi h ho hj htj with hsrc | ⟨rfl, hfree⟩
      · exact hsrc
      · exact absurd hs (hns o ho hj hfree)
    · exact wins_of_lastLine h lapicId ho (lastLine_not_skipped h ho hs)

end Win

/-! ### The calls -/

/-- From `p` to `p'` the calls `cs` have been made; the searches find what they found. -/
structure Made (p p' : Platform) (cs : List RedirCall) : Prop where
  calls : p'.calls = p.calls ++ cs
  isos : p'.madtIsos = p.madtIsos
  lapic : p'.lapic = p.lapic
  owners : ∀ g, owner p'.ioapics g = owner p.ioapics g

/-- The argument `lapic_get_id()`. -/
def idArg (p : Platform) : BitVec 32 := (lapicGetId p).setWidth 32

/-- Every line's interrupt has an I/O APIC. -/
def Found (p : Platform) : Prop := ∀ i < 16, owner p.ioapics (target p.madtIsos i) ≠ none

section Calls
variable {p p' p'' : Platform} {cs cs' : List RedirCall}

theorem Made.refl (p : Platform) : Made p p [] := ⟨(List.append_nil _).symm, rfl, rfl, fun _ => rfl⟩

theorem Made.trans (h : Made p p' cs) (h' : Made p' p'' cs') : Made p p'' (cs ++ cs') :=
  ⟨by rw [h'.calls, h.calls, List.append_assoc], h'.isos.trans h.isos, h'.lapic.trans h.lapic,
    fun g => (h'.owners g).trans (h.owners g)⟩

theorem Made.idArg (h : Made p p' cs) : idArg p' = idArg p := by
  simp only [ApicInitSpec.idArg, lapicGetId, lapicReadReg, h.lapic]

theorem Made.found (h : Made p p' cs) (hf : Found p) : Found p' := by
  intro i hi
  rw [h.owners, h.isos]
  exact hf i hi

theorem exec_keeps {s : Ioapics} {c : RedirCall} (h : owner s c.gsi ≠ none) :
    ∃ s', exec s c = some s' ∧ ∀ g, owner s' g = owner s g := by
  obtain ⟨i, hi⟩ := Option.ne_none_iff_exists'.mp h
  obtain ⟨hs, -⟩ := ioapicIFromGsi_spec s c.gsi
  set t := (ioapicIFromGsi s c.gsi).2 with ht
  have hfind : ioapicIFromGsi s c.gsi = (some i, t) := Prod.ext hi rfl
  have hkeeps : ∀ u : Ioapics, u.madtIoapics = t.madtIoapics → (∀ j, u.reg j 1#8 = t.reg j 1#8) →
      ∀ g, owner u g = owner s g := fun u hm hv g =>
    owner_congr (hm.trans hs.madt) (fun j _ => (hv j).trans (hs.reg j 1#8)) g
  rw [exec, ioapicSetGsiRedir, hfind]
  exact ⟨_, rfl, hkeeps _ rfl fun j =>
    (version_ioapicWriteReg _ i _ _ j).trans (version_ioapicWriteReg _ i _ _ j)⟩

theorem setGsiRedir_spec {c : RedirCall} (h : owner p.ioapics c.gsi ≠ none) :
    ∃ p', setGsiRedir p c = some p' ∧ Made p p' [c] ∧ p'.mem = p.mem := by
  obtain ⟨s', hs, hown⟩ := exec_keeps h
  refine ⟨{ p with ioapics := s', calls := p.calls ++ [c] }, ?_, ⟨rfl, rfl, rfl, hown⟩, rfl⟩
  rw [setGsiRedir, hs, Option.map_some]

/-- **A line**: its call, and its interrupt as the result. -/
theorem redirLine_spec {i : ℕ} (hf : owner p.ioapics (target p.madtIsos i) ≠ none) :
    ∃ p', redirLine p i = some (target p.madtIsos i, p') ∧
      Made p p' [callOf p.madtIsos (idArg p) i] ∧ p'.mem = p.mem := by
  obtain ⟨p', h1, h2, h3⟩ := setGsiRedir_spec (p := p) (c := callOf p.madtIsos (idArg p) i) hf
  refine ⟨p', ?_, h2, h3⟩
  rw [redirLine, ioapicSetIrqRedir]
  rw [callOf, target, flagsOf, isoOf] at h1
  rw [target, isoOf]
  cases ho : p.madtIsos.find? (·.irqSrc = BitVec.ofNat 8 i) with
  | none =>
    rw [ho] at h1
    exact congrArg (Option.map ((BitVec.ofNat 8 i).setWidth 32, ·)) h1
  | some o =>
    rw [ho] at h1
    exact congrArg (Option.map (o.gsi, ·)) h1

/-- **The first loop** makes the calls of its lines. -/
theorem firstLoop_spec : ∀ {k i : ℕ} {p : Platform}, i + k ≤ 16 → Found p →
    ∃ p', firstLoop k i p = some p' ∧ Made p p' ((List.range' i k).map (callOf p.madtIsos (idArg p)))
  | 0, i, p, _, _ => ⟨p, rfl, .refl p⟩
  | k + 1, i, p, hk, hf => by
    obtain ⟨p₁, h1, h2, -⟩ := redirLine_spec (hf i (by omega))
    obtain ⟨p₂, h3, h4⟩ := firstLoop_spec (k := k) (i := i + 1) (by omega) (h2.found hf)
    rw [h2.isos, h2.idArg] at h4
    refine ⟨p₂, ?_, h2.trans h4⟩
    rw [firstLoop, h1]
    exact h3

end Calls

/-! ### The bitmap -/

/-- The bits of the bitmap of 16 bytes at `map` are the interrupts of `S`. -/
def Marks (m : Mem) (map : ℕ) (S : ℕ → Prop) : Prop :=
  ∀ x < 128, bitmapGet m ⟨map, 16⟩ (toInt x) ≠ 0 ↔ S x

section Marks
variable {m : Mem} {map : ℕ} {S : ℕ → Prop}

theorem memset_of_lt (m : Mem) (ptr : ℕ) (val : UInt8) : ∀ {n k : ℕ}, k < n →
    memset m ptr val n (physOf ((ptr + k) % 2 ^ 64)) = val
  | n + 1, k, h => by
    rw [memset, Function.update_apply]
    split_ifs with he
    · rfl
    · refine memset_of_lt m ptr val (Nat.lt_of_le_of_ne (Nat.lt_succ_iff.mp h) ?_)
      rintro rfl
      exact he rfl

theorem marks_memset (m : Mem) (map : ℕ) : Marks (memset m map 0 16) map fun _ => False := by
  intro x hx
  have haddr : byteAddr ⟨map, 16⟩ (toInt x) = physOf ((map + x / 8) % 2 ^ 64) :=
    congrArg physOf (accessAddr_of_lt ⟨map, 16⟩ (by omega))
  rw [bitmapGet, haddr, memset_of_lt m map 0 (by omega), UInt8.zero_and]
  simp

theorem Marks.set (h : Marks m map S) {g : ℕ} (hg : g < 128) :
    Marks (bitmapSet m ⟨map, 16⟩ (toInt g)) map fun x => S x ∨ x = g := by
  intro x hx
  by_cases hxg : x = g
  · subst hxg
    exact iff_of_true ((indexLaw_of_lt (by omega) (show x < 8 * 16 by omega)).set m) (Or.inr rfl)
  · rw [(apart_of_ne (by omega) (by omega) (Ne.symm hxg)).set m, h x hx]
    exact (or_iff_left hxg).symm

end Marks

theorem used_snoc {isos : List MadtIso} (ls : List ℕ) (i x : ℕ) :
    (∃ j ∈ ls ++ [i], (target isos j).toNat = x) ↔
      (∃ j ∈ ls, (target isos j).toNat = x) ∨ x = (target isos i).toNat := by
  simp only [List.mem_append, List.mem_singleton, or_and_right, exists_or, exists_eq_left,
    @eq_comm ℕ x]

/-- **The second loop** makes the calls of the lines it does not skip. -/
theorem secondLoop_spec {map : ℕ} : ∀ {k i : ℕ} {p : Platform}, i + k ≤ 16 →
    Overrides p.madtIsos → Found p →
    Marks p.mem map (fun x => ∃ j ∈ lines p.madtIsos i, (target p.madtIsos j).toNat = x) →
    ∃ p' ls, secondLoop ⟨map, 16⟩ k i p = some p' ∧ lines p.madtIsos (i + k) = lines p.madtIsos i ++ ls ∧
      Made p p' (ls.map (callOf p.madtIsos (idArg p)))
  | 0, i, p, _, _, _, _ => ⟨p, [], rfl, (List.append_nil _).symm, .refl p⟩
  | k + 1, i, p, hk, ho, hf, hm => by
    have hbit := hm i (by omega)
    rw [secondLoop, show i + (k + 1) = i + 1 + k by omega]
    by_cases hs : Skipped p.madtIsos i
    · rw [if_neg (hbit.mpr hs)]
      have hlines := lines_of_skipped hs
      obtain ⟨p', ls, h1, h2, h3⟩ :=
        secondLoop_spec (k := k) (i := i + 1) (by omega) ho hf (by rwa [hlines])
      exact ⟨p', ls, h1, by rw [h2, hlines], h3⟩
    · rw [if_pos (by_contra fun h => hs (hbit.mp h))]
      obtain ⟨p₁, h1, h2, h3⟩ := redirLine_spec (hf i (by omega))
      obtain ⟨q, hq⟩ : ∃ q : Platform, q =
          { p₁ with mem := bitmapSet p₁.mem ⟨map, 16⟩ (toInt (target p.madtIsos i).toNat) } := ⟨_, rfl⟩
      have hlines := lines_of_not_skipped hs
      have hmade : Made p q [callOf p.madtIsos (idArg p) i] := by
        rw [hq]
        exact ⟨h2.calls, h2.isos, h2.lapic, h2.owners⟩
      have hmarks : Marks q.mem map fun x =>
          ∃ j ∈ lines q.madtIsos (i + 1), (target q.madtIsos j).toNat = x := by
        rw [hmade.isos, hlines, hq, h3]
        exact fun x hx => ((hm.set (target_lt ho (by omega : i < 16))) x hx).trans (used_snoc _ _ _).symm
      obtain ⟨p', ls, h4, h5, h6⟩ := secondLoop_spec (k := k) (i := i + 1) (p := q) (by omega)
        (by rw [hmade.isos]; exact ho) (hmade.found hf) hmarks
      rw [hmade.isos] at h5
      rw [hmade.isos, hmade.idArg] at h6
      refine ⟨p', i :: ls, ?_, by rw [h5, hlines, List.append_assoc]; rfl, hmade.trans h6⟩
      rw [← h4, h1, hq]
      rfl

/-! ### `apic_init` -/

/-- **The calls of `apic_init`.** -/
theorem apicInit_calls (map : ℕ) {p : Platform} (ha : apicIsAvail p = true) (ho : Overrides p.madtIsos)
    (hf : Found p) :
    ∃ p', apicInit map p = some p' ∧
      p'.calls = p.calls ++ (callLines p.madtIsos).map (callOf p.madtIsos (idArg p)) := by
  obtain ⟨p₀, hp₀⟩ : ∃ p₀, p₀ = lapicEnable { p with pics := Pic.picDisable p.pics } := ⟨_, rfl⟩
  have hisos : p₀.madtIsos = p.madtIsos := by rw [hp₀]; rfl
  have hcalls : p₀.calls = p.calls := by rw [hp₀]; rfl
  have hid : idArg p₀ = idArg p := by rw [hp₀]; rfl
  have hf₀ : Found p₀ := by rw [hp₀]; exact hf
  obtain ⟨p₁, h1, h2⟩ := firstLoop_spec (k := 16) (i := 0) le_rfl hf₀
  obtain ⟨q, hq⟩ : ∃ q : Platform, q = { p₁ with mem := memset p₁.mem map 0 16 } := ⟨_, rfl⟩
  have hmade : Made p₀ q ((List.range' 0 16).map (callOf p₀.madtIsos (idArg p₀))) := by
    rw [hq]
    exact ⟨h2.calls, h2.isos, h2.lapic, h2.owners⟩
  have hmarks : Marks q.mem map fun x => ∃ j ∈ lines q.madtIsos 0, (target q.madtIsos j).toNat = x := by
    rw [hq]
    exact fun x hx => (marks_memset p₁.mem map x hx).trans (by simp [lines])
  obtain ⟨p', ls, h3, h4, h5⟩ := secondLoop_spec (k := 16) (i := 0) (p := q) le_rfl
    (by rw [hmade.isos, hisos]; exact ho) (hmade.found hf₀) hmarks
  refine ⟨p', ?_, ?_⟩
  · rw [apicInit, if_pos ha, ← hp₀, h1, ← h3, hq]
    rfl
  · rw [hmade.isos, hisos] at h4
    have hls : ls = lines p.madtIsos 16 := h4.symm
    rw [h5.calls, hmade.calls, hmade.isos, hmade.idArg, hisos, hid, hcalls, hls, callLines,
      List.map_append, List.append_assoc, List.range_eq_range']

/-- **Interrupt source overrides.** `apic_init` returns, and among its calls the overrides win
exactly if the chains are even. -/
theorem apicInit_overrides_iff (map : ℕ) {p : Platform} (ha : apicIsAvail p = true)
    (ho : Overrides p.madtIsos)
    (hf : ∀ g : BitVec 32, (g.toNat < 16 ∨ ∃ o ∈ p.madtIsos, o.gsi = g) → owner p.ioapics g ≠ none) :
    ∃ p' cs, apicInit map p = some p' ∧ p'.calls = p.calls ++ cs ∧
      (OverridesWin p.madtIsos cs ↔ ChainsEven p.madtIsos) := by
  have hfound : Found p := by
    intro i hi
    rcases line_cases ho hi with ⟨o, hmem, -, ht⟩ | ⟨-, ht⟩
    · exact hf _ (Or.inr ⟨o, hmem, ht.symm⟩)
    · exact hf _ (Or.inl (by omega))
  obtain ⟨p', h1, h2⟩ := apicInit_calls map ha ho hfound
  exact ⟨p', _, h1, h2, overridesWin_iff ho (idArg p)⟩

/-- A platform with the two I/O APICs and the given overrides. -/
def platform (isos : List MadtIso) : Platform where
  edx := 0x200#32
  lapic _ := 0#32
  pics := ⟨⟨.ready, 0#8, 8#8, 4#8, 1#8⟩, ⟨.ready, 0#8, 0x70#8, 2#8, 1#8⟩⟩
  ioapics := twoIoapics
  madtIsos := isos
  mem _ := 0
  calls := []

theorem platform_found : ∀ g : BitVec 32, g.toNat < 16 → owner twoIoapics g ≠ none := by
  have hall : ∀ k < 16, owner twoIoapics (BitVec.ofNat 32 k) ≠ none := by decide
  intro g hg
  have h := hall g.toNat hg
  rwa [BitVec.ofNat_toNat, BitVec.setWidth_eq] at h

/-- The timer at interrupt 2. -/
theorem apicInit_overrides_iff_timer : ∃ p', apicInit 0xFFFF900000000000
    (platform [⟨0#8, 2#32, 0#16⟩]) = some p' ∧
    OverridesWin [⟨0#8, 2#32, 0#16⟩] p'.calls := by
  have ho : Overrides [⟨0#8, 2#32, 0#16⟩] := ⟨by decide, by decide, by decide, by decide⟩
  have heven : ChainsEven [⟨0#8, 2#32, 0#16⟩] := by
    refine (chainsEven_iff ho).mpr fun o hmem _ _ => ?_
    rw [List.mem_singleton.mp hmem]
    rintro ⟨j, hj, -⟩
    exact absurd hj (by simp [lines])
  obtain ⟨p', cs, h1, h2, h3⟩ :=
    apicInit_overrides_iff 0xFFFF900000000000 (p := platform [⟨0#8, 2#32, 0#16⟩])
    (by decide) ho fun g hg => by
      refine platform_found g ?_
      rcases hg with hg | ⟨o, hmem, rfl⟩
      · exact hg
      · rw [List.mem_singleton.mp hmem]
        decide
  refine ⟨p', h1, ?_⟩
  rw [h2]
  exact h3.mpr heven

/-- With the overrides of line 0 to interrupt 1 and of line 1 to interrupt 2 the last call for
interrupt 2 is the one of line 2. -/
theorem chained_override_loses : ∃ p',
    apicInit 0xFFFF900000000000 (platform [⟨0#8, 1#32, 0#16⟩, ⟨1#8, 2#32, 0#16⟩]) = some p' ∧
      lastCall p'.calls 2#32 = some ⟨0#32, 34#8, 2#32, 0#16, true⟩ ∧
      ¬ OverridesWin [⟨0#8, 1#32, 0#16⟩, ⟨1#8, 2#32, 0#16⟩] p'.calls := by
  obtain ⟨p', h1, h2⟩ := apicInit_calls 0xFFFF900000000000
    (p := platform [⟨0#8, 1#32, 0#16⟩, ⟨1#8, 2#32, 0#16⟩]) (by decide)
    ⟨by decide, by decide, by decide, by decide⟩ fun i hi => platform_found _ (by revert i; decide)
  have hlast : lastCall p'.calls 2#32 = some ⟨0#32, 34#8, 2#32, 0#16, true⟩ := by
    rw [h2]
    decide
  refine ⟨p', h1, hlast, fun h => ?_⟩
  obtain ⟨c, hc, hvec, -⟩ := h.overrides ⟨1#8, 2#32, 0#16⟩ (by simp)
  rw [hlast] at hc
  obtain rfl := Option.some.inj hc
  exact absurd hvec (by decide)

end FusionCore.Dd.ApicInitSpec
