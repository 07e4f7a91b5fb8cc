import FusionCore.Acpi.Madt
import FusionCore.Acpi.SdtSpec
import FusionCore.Lib.Walk

/-! # Walking the MADT

The loop of `_acpi_madt_init` goes from entry to entry by their length bytes: the entries it comes to
are the positions of a walk (`entryLoop_eq`), and what it leaves in the arrays is read off them. -/

namespace FusionCore.Acpi.MadtSpec

open FusionCore.Lib.ByteMem FusionCore.Lib.Walk FusionCore.Mm.Defs
open FusionCore.Acpi.Sdt FusionCore.Acpi.SdtSpec FusionCore.Acpi.Madt

/-! ### The positions -/

/-- The pointer to the entry at the physical address `q`. -/
def ptr (q : ℕ) : ℕ := physToHigherHalfData q

/-- The length byte of the entry at `q`. -/
def lenAt (m : Mem) (q : ℕ) : ℕ := (m (q + 1)).toNat

/-- The end of the table at `t`. -/
def tableEnd (m : Mem) (t : ℕ) : ℕ := t + sdtLen m t

/-- What the entries at `ps` leave in the arrays. -/
def recordAll (m : Mem) (ps : List ℕ) (s : Arrays) : Arrays :=
  ps.foldl (fun s q => recordEntry m (ptr q) s) s

section Positions
variable {m : Mem} {q t : ℕ}

theorem ptr_eq (h : q < 2 ^ 47) : ptr q = q + higherHalfData := by
  rw [ptr, physToHigherHalfData]
  exact Nat.mod_eq_of_lt (by unfold higherHalfData; omega)

theorem physOf_ptr (h : q < 2 ^ 47) : physOf (ptr q) = q := by
  rw [ptr_eq h, physOf, if_pos (by omega), Nat.add_sub_cancel]

theorem ptr_add {n : ℕ} (h : q + n < 2 ^ 47) : (ptr q + n) % 2 ^ 64 = ptr (q + n) := by
  rw [ptr_eq (by omega), ptr_eq h]
  unfold higherHalfData
  omega

theorem ptr_lt_iff {q' : ℕ} (h : q < 2 ^ 47) (h' : q' < 2 ^ 47) : ptr q < ptr q' ↔ q < q' := by
  rw [ptr_eq h, ptr_eq h']
  omega

theorem lenAt_lt (m : Mem) (q : ℕ) : lenAt m q < 256 := (m (q + 1)).toNat_lt

theorem advance_ptr (h : q < 2 ^ 46) : advance m (ptr q) = ptr (q + lenAt m q) := by
  have hlen := lenAt_lt m q
  have hread : physOf ((ptr q + 1) % 2 ^ 64) = q + 1 := by rw [ptr_add (by omega), physOf_ptr (by omega)]
  rw [advance, hread]
  exact ptr_add (by unfold lenAt at hlen; omega)

/-- **The loop is a walk.** -/
theorem entryLoop_eq {b : ℕ} (hb : b ≤ 2 ^ 34) : ∀ (fuel : ℕ) {q : ℕ} (s : Arrays), q < 2 ^ 35 →
    entryLoop m (ptr b) fuel (ptr q) s = (walk (lenAt m) b fuel q).map (recordAll m · s)
  | 0, _, _, _ => rfl
  | fuel + 1, q, s, hq => by
    have hcond : ptr q < ptr b ↔ q < b := ptr_lt_iff (by omega) (by omega)
    rw [entryLoop]
    by_cases h : q < b
    · have hlen := lenAt_lt m q
      rw [if_pos (hcond.mpr h), advance_ptr (by omega), entryLoop_eq hb fuel _ (by omega), walk_of_lt h,
        Option.map_map]
      rfl
    · rw [if_neg fun h' => h (hcond.mp h'), walk_of_le (by omega)]
      rfl

theorem sdtLen_lt (m : Mem) (t : ℕ) : sdtLen m t < 2 ^ 32 := by
  have h := load_lt m 4 (t + 4)
  norm_num at h
  exact h

section Table
variable (ht : t < 2 ^ 32)
include ht

theorem entriesPtr_ptr : entriesPtr (ptr t) = ptr (t + 44) := ptr_add (by omega)

theorem endPtr_ptr : endPtr m (ptr t) = ptr (tableEnd m t) := by
  have hlen := sdtLen_lt m t
  rw [endPtr, physOf_ptr (by omega), ptr_add (by omega), tableEnd]

theorem entriesLoop_eq (fuel : ℕ) (s : Arrays) : entriesLoop fuel m (ptr t) s =
    (walk (lenAt m) (tableEnd m t) fuel (t + 44)).map (recordAll m · s) := by
  have hlen := sdtLen_lt m t
  rw [entriesLoop, entriesPtr_ptr ht, endPtr_ptr ht]
  exact entryLoop_eq (by unfold tableEnd; omega) fuel s (by omega)

end Table
end Positions

/-! ### Termination -/

/-- **The walk over the MADT ends** exactly if no entry it comes to has the length 0. -/
theorem entriesLoop_ends_iff (m : Mem) {t : ℕ} (ht : t < 2 ^ 32) (s : Arrays) :
    (∃ fuel, entriesLoop fuel m (physToHigherHalfData t) s ≠ none) ↔
      ∀ q, Reached (lenAt m) (tableEnd m t) (t + 44) q → q < tableEnd m t → m (q + 1) ≠ 0 := by
  have hloop : ∀ fuel, entriesLoop fuel m (physToHigherHalfData t) s ≠ none ↔
      walk (lenAt m) (tableEnd m t) fuel (t + 44) ≠ none := by
    intro fuel
    rw [show physToHigherHalfData t = ptr t from rfl, entriesLoop_eq ht]
    simp
  simp only [hloop]
  rw [ends_iff]
  refine forall₃_congr fun q _ _ => not_congr ?_
  rw [lenAt, ← UInt8.toNat_inj]
  rfl

/-- Empty arrays. -/
def fresh : Arrays := fun _ => ⟨fun _ => 0, 0⟩

/-- A table at `0x1000` with a local APIC, an entry of type 9, an I/O APIC, an override, a second
local APIC and an NMI. -/
def fewEntries : Mem := fun a =>
  if 0x102C ≤ a then
    [0, 8, 0, 0, 1, 0, 0, 0, 9, 4, 0, 8, 1, 12, 1, 0, 0, 0, 0xC0, 0xFE, 0, 0, 0, 0, 2, 10, 0, 0, 2,
      0, 0, 0, 0, 0, 0, 8, 1, 1, 1, 0, 0, 0, 4, 6, 0xFF, 5, 0, 1].getD (a - 0x102C) 0
  else if a = 0x1004 then 92 else 0

theorem entriesLoop_ends_iff_few :
    ∃ fuel, entriesLoop fuel fewEntries (physToHigherHalfData 0x1000) fresh ≠ none := by
  refine (entriesLoop_ends_iff fewEntries (by norm_num) fresh).mpr fun q hq hlt => ?_
  have hwalk : walk (lenAt fewEntries) (tableEnd fewEntries 0x1000) 7 (0x1000 + 44) =
      some [0x102C, 0x1034, 0x1038, 0x1044, 0x104E, 0x1056] := by decide +kernel
  have hlens : ∀ q ∈ [0x102C, 0x1034, 0x1038, 0x1044, 0x104E, 0x1056], fewEntries (q + 1) ≠ 0 := by
    decide +kernel
  exact hlens q ((mem_walk hwalk q).mpr ⟨hq, hlt⟩)

/-- A table at `0x1000` of `size` bytes, with an entry of type 3 whose length is `len`. -/
def oneEntry (size len : UInt8) : Mem := fun a => if a = 0x1004 then size else if a = 0x102C then 3
  else if a = 0x102D then len else 0

/-- With the length 0 the loop stays at the entry. -/
theorem zero_length_stays :
    (∀ fuel, entriesLoop fuel (oneEntry 46 0) (physToHigherHalfData 0x1000) fresh = none) ∧
      ¬ ∃ fuel, entriesLoop fuel (oneEntry 46 0) (physToHigherHalfData 0x1000) fresh ≠ none := by
  have hnone : ∀ fuel, entriesLoop fuel (oneEntry 46 0) (physToHigherHalfData 0x1000) fresh = none := by
    intro fuel
    rw [entriesLoop]
    induction fuel with
    | zero => rfl
    | succ fuel ih =>
      have hlt : entriesPtr (physToHigherHalfData 0x1000) <
          endPtr (oneEntry 46 0) (physToHigherHalfData 0x1000) := by decide
      have hstay : advance (oneEntry 46 0) (entriesPtr (physToHigherHalfData 0x1000)) =
          entriesPtr (physToHigherHalfData 0x1000) := by decide
      have hskip : recordEntry (oneEntry 46 0) (entriesPtr (physToHigherHalfData 0x1000))
          fresh = fresh := rfl
      rw [entryLoop, if_pos hlt, hstay, hskip, ih]
  exact ⟨hnone, fun ⟨fuel, h⟩ => h (hnone fuel)⟩

/-! ### What the arrays hold -/

section Record
variable {m : Mem} {q : ℕ} {k : Kind} {ps : List ℕ}

/-- The entry at `q` is one for the array `k`. -/
def IsKind (m : Mem) (k : Kind) (q : ℕ) : Prop := kindOf (m q) = some k

instance (m : Mem) (k : Kind) (q : ℕ) : Decidable (IsKind m k q) := by
  unfold IsKind; infer_instance

theorem recordEntry_none {p : ℕ} (h : kindOf (m (physOf p)) = none) (s : Arrays) :
    recordEntry m p s = s := by
  rw [recordEntry, h]

theorem recordEntry_some {p : ℕ} (h : kindOf (m (physOf p)) = some k) (s : Arrays) :
    recordEntry m p s = Function.update s k ((s k).push p) := by
  rw [recordEntry, h]

theorem recordEntry_ptr (h : q < 2 ^ 47) (s : Arrays) (k : Kind) :
    recordEntry m (ptr q) s k = if IsKind m k q then (s k).push (ptr q) else s k := by
  have hread : physOf (ptr q) = q := physOf_ptr h
  by_cases hk : IsKind m k q
  · rw [if_pos hk, recordEntry_some (by rw [hread]; exact hk), Function.update_self]
  · rw [if_neg hk]
    rcases hq : kindOf (m q) with _ | k'
    · rw [recordEntry_none (by rw [hread]; exact hq)]
    · have hne : k ≠ k' := fun h => hk (h ▸ hq)
      rw [recordEntry_some (by rw [hread]; exact hq), Function.update_of_ne hne]

/-- **The array of a kind** has the pointers to the entries of the kind, after what it had. -/
theorem recordAll_eq (s : Arrays) (hps : ∀ q ∈ ps, q < 2 ^ 47) :
    recordAll m ps s k = ((ps.filter (IsKind m k ·)).map ptr).foldl PtrArray.push (s k) := by
  induction ps generalizing s with
  | nil => rfl
  | cons q ps ih =>
    rw [recordAll, List.foldl_cons]
    refine (ih (recordEntry m (ptr q) s) fun q' h => hps q' (by simp [h])).trans ?_
    rw [recordEntry_ptr (hps q (by simp)), List.filter_cons]
    by_cases h : IsKind m k q <;> simp [h]

theorem count_foldl_push (l : List ℕ) (a : PtrArray) :
    (l.foldl PtrArray.push a).count = a.count + l.length := by
  induction l generalizing a with
  | nil => rfl
  | cons p l ih =>
    rw [List.foldl_cons, ih, List.length_cons]
    show a.count + 1 + l.length = _
    omega

theorem count_recordAll (s : Arrays) (hps : ∀ q ∈ ps, q < 2 ^ 47) :
    (recordAll m ps s k).count = (s k).count + (ps.filter (IsKind m k ·)).length := by
  rw [recordAll_eq s hps, count_foldl_push, List.length_map]

end Record

/-! ### Bounds -/

/-- `sizeof` of the structure of a kind. -/
def Kind.size : Kind → ℕ
  | .lapic => 8
  | .ioapic => 12
  | .iso => 10
  | .lapicNmi => 6

/-- What an iteration reads and stores: a byte of a header, an entry of a kind that is recorded, and the
index at which an array is written. -/
inductive Access
  | header (p : ℕ)
  | entry (k : Kind) (p : ℕ)
  | store (k : Kind) (i : ℕ)
  deriving DecidableEq

/-- The accesses of one iteration. -/
def accesses (m : Mem) (entryPtr : ℕ) (s : Arrays) : List Access :=
  .header entryPtr ::
    (match kindOf (m (physOf entryPtr)) with
      | some k => [.entry k entryPtr, .store k (s k).count]
      | none => []) ++ [.header ((entryPtr + 1) % 2 ^ 64)]

/-- The accesses of the loop, along `entryLoop`. -/
def loopAccesses (m : Mem) (stop : ℕ) : ℕ → ℕ → Arrays → List Access
  | 0, _, _ => []
  | fuel + 1, entryPtr, s =>
    if entryPtr < stop then
      accesses m entryPtr s ++ loopAccesses m stop fuel (advance m entryPtr) (recordEntry m entryPtr s)
    else []

/-- An access in bounds, for the table at `madt`: arrays have 256 bytes, so room for 32 pointers. -/
def Access.Inside (m : Mem) (madt : ℕ) : Access → Prop
  | .header p => entriesPtr madt ≤ p ∧ p < endPtr m madt
  | .entry k p => madt ≤ p ∧ p + Kind.size k ≤ endPtr m madt
  | .store _ i => i < 32

/-- **The loop stays in bounds**: in every run that ends. -/
def Bounded (m : Mem) (madt : ℕ) (s : Arrays) : Prop :=
  ∀ fuel, entriesLoop fuel m madt s ≠ none →
    ∀ ac ∈ loopAccesses m (endPtr m madt) fuel (entriesPtr madt) s, ac.Inside m madt

/-- The entries the length bytes lead to. -/
def positions (m : Mem) (t : ℕ) : List ℕ :=
  (walk (lenAt m) (tableEnd m t) (sdtLen m t + 1) (t + 44)).getD []

/-- **The condition on a table**: no entry begins at the last byte, the entries that are recorded are
as long as their structures, and there are at most 32 of a kind. -/
structure Fits (m : Mem) (t : ℕ) : Prop where
  headers : ∀ q ∈ positions m t, q + 1 ≠ tableEnd m t
  entries : ∀ q ∈ positions m t, ∀ k, IsKind m k q → q + Kind.size k ≤ tableEnd m t
  few : ∀ k, ((positions m t).filter (IsKind m k ·)).length ≤ 32

/-- The accesses at the entries `ps`. -/
def accessesAll (m : Mem) : List ℕ → Arrays → List Access
  | [], _ => []
  | q :: ps, s => accesses m (ptr q) s ++ accessesAll m ps (recordEntry m (ptr q) s)

section Bounds
variable {m : Mem} {t : ℕ} {ps : List ℕ}

theorem loopAccesses_eq {b : ℕ} (hb : b ≤ 2 ^ 34) :
    ∀ {fuel q : ℕ} {ps : List ℕ} (s : Arrays), q < 2 ^ 35 →
    walk (lenAt m) b fuel q = some ps → loopAccesses m (ptr b) fuel (ptr q) s = accessesAll m ps s
  | fuel + 1, q, ps, s, hq, hw => by
    have hcond : ptr q < ptr b ↔ q < b := ptr_lt_iff (by omega) (by omega)
    rw [loopAccesses]
    by_cases h : q < b
    · have hlen := lenAt_lt m q
      rw [walk_of_lt h, Option.map_eq_some_iff] at hw
      obtain ⟨ps', h1, rfl⟩ := hw
      rw [if_pos (hcond.mpr h), advance_ptr (by omega), loopAccesses_eq hb _ (by omega) h1, accessesAll]
    · rw [walk_of_le (by omega)] at hw
      obtain rfl := Option.some.inj hw
      rw [if_neg fun h' => h (hcond.mp h'), accessesAll]

theorem mem_accessesAll {ac : Access} (s : Arrays) : ac ∈ accessesAll m ps s ↔
    ∃ pre q post, ps = pre ++ q :: post ∧ ac ∈ accesses m (ptr q) (recordAll m pre s) := by
  induction ps generalizing s with
  | nil => simp [accessesAll]
  | cons q ps ih =>
    rw [accessesAll, List.mem_append, ih]
    constructor
    · rintro (h | ⟨pre, q', post, rfl, h⟩)
      · exact ⟨[], q, ps, rfl, h⟩
      · exact ⟨q :: pre, q', post, rfl, h⟩
    · rintro ⟨pre, q', post, he, h⟩
      rcases pre with _ | ⟨q₀, pre⟩
      · obtain ⟨rfl, rfl⟩ := List.cons.inj he
        exact Or.inl h
      · obtain ⟨rfl, rfl⟩ := List.cons.inj he
        exact Or.inr ⟨pre, q', post, rfl, h⟩

theorem mem_accesses {q : ℕ} (h : q + 1 < 2 ^ 47) {s : Arrays} {ac : Access} : ac ∈ accesses m (ptr q) s ↔
    ac = .header (ptr q) ∨ ac = .header (ptr (q + 1)) ∨
      ∃ k, IsKind m k q ∧ (ac = .entry k (ptr q) ∨ ac = .store k (s k).count) := by
  unfold accesses IsKind
  rw [physOf_ptr (by omega), ptr_add h]
  cases kindOf (m q) with
  | none => simp
  | some k =>
    simp only [List.mem_cons, List.cons_append, List.nil_append, List.not_mem_nil, or_false,
      Option.some.injEq, exists_eq_left']
    constructor
    · rintro (h | h | h | h)
      · exact Or.inl h
      · exact Or.inr (Or.inr (Or.inl h))
      · exact Or.inr (Or.inr (Or.inr h))
      · exact Or.inr (Or.inl h)
    · rintro (h | h | h | h)
      · exact Or.inl h
      · exact Or.inr (Or.inr (Or.inr h))
      · exact Or.inr (Or.inl h)
      · exact Or.inr (Or.inr (Or.inl h))

theorem forall_split_lt_iff {p : ℕ → Bool} {n : ℕ} :
    (∀ pre q post, ps = pre ++ q :: post → p q = true → (pre.filter p).length < n) ↔
      (ps.filter p).length ≤ n := by
  induction ps using List.reverseRecOn with
  | nil => simp
  | append_singleton ps q ih =>
    rw [List.filter_append, List.length_append]
    constructor
    · intro h
      have hps := ih.mp fun pre q' post he hq' => h pre q' (post ++ [q]) (by rw [he]; simp) hq'
      by_cases hq : p q = true
      · have hlast := h ps q [] rfl hq
        simp [hq]
        omega
      · simp [hq]
        omega
    · intro h pre q' post he hq'
      rcases List.eq_nil_or_concat post with rfl | ⟨post, q'', rfl⟩
      · obtain ⟨rfl, hlast⟩ := List.append_inj' he rfl
        obtain rfl : q = q' := by simpa using hlast
        simp [hq'] at h
        omega
      · rw [List.concat_eq_append, ← List.cons_append, ← List.append_assoc] at he
        obtain ⟨rfl, -⟩ := List.append_inj' he rfl
        exact ih.mpr (by omega) pre q' post rfl hq'

variable (ht : t < 2 ^ 32) {s : Arrays}
include ht

theorem walk_positions (hend : ∃ fuel, entriesLoop fuel m (ptr t) s ≠ none) :
    walk (lenAt m) (tableEnd m t) (sdtLen m t + 1) (t + 44) = some (positions m t) := by
  simp only [entriesLoop_eq ht, ne_eq, Option.map_eq_none_iff] at hend
  obtain ⟨ps, hps⟩ := exists_walk (ends_iff.mp hend)
  have hw := hps (sdtLen m t + 1) (by unfold tableEnd; omega)
  rw [positions, hw]
  rfl

theorem mem_positions (hend : ∃ fuel, entriesLoop fuel m (ptr t) s ≠ none) {q : ℕ} :
    q ∈ positions m t ↔ Reached (lenAt m) (tableEnd m t) (t + 44) q ∧ q < tableEnd m t :=
  mem_walk (walk_positions ht hend) q

/-- **The accesses of a run that ends** are those at the entries. -/
theorem loopAccesses_positions {fuel : ℕ} (hfuel : entriesLoop fuel m (ptr t) s ≠ none) :
    loopAccesses m (endPtr m (ptr t)) fuel (entriesPtr (ptr t)) s = accessesAll m (positions m t) s := by
  have hlen := sdtLen_lt m t
  have hw := walk_positions ht ⟨fuel, hfuel⟩
  rw [entriesLoop_eq ht, ne_eq, Option.map_eq_none_iff] at hfuel
  obtain ⟨ps, hps⟩ := Option.ne_none_iff_exists'.mp hfuel
  rw [← walk_unique hps hw, entriesPtr_ptr ht, endPtr_ptr ht]
  exact loopAccesses_eq (by unfold tableEnd; omega) s (by omega) hps

theorem inside_header_iff {q : ℕ} (h : q < 2 ^ 47) :
    (Access.header (ptr q)).Inside m (ptr t) ↔ t + 44 ≤ q ∧ q < tableEnd m t := by
  have hlen := sdtLen_lt m t
  have hb : tableEnd m t < 2 ^ 47 := by unfold tableEnd; omega
  rw [Access.Inside, entriesPtr_ptr ht, endPtr_ptr ht, ptr_lt_iff h hb, ptr_eq (by omega), ptr_eq h]
  omega

theorem inside_entry_iff {q : ℕ} (h : q < 2 ^ 46) (k : Kind) :
    (Access.entry k (ptr q)).Inside m (ptr t) ↔ t ≤ q ∧ q + Kind.size k ≤ tableEnd m t := by
  have hlen := sdtLen_lt m t
  have hb : tableEnd m t < 2 ^ 47 := by unfold tableEnd; omega
  rw [Access.Inside, endPtr_ptr ht, ptr_eq (by omega), ptr_eq (by omega), ptr_eq hb]
  omega

/-- **One iteration stays in bounds** exactly if the entry does not begin at the last byte, and, when
it is recorded, is as long as its structure and finds a place in its array. -/
theorem inside_accesses_iff {q : ℕ} (hge : t + 44 ≤ q) (hlt : q < tableEnd m t) :
    (∀ ac ∈ accesses m (ptr q) s, ac.Inside m (ptr t)) ↔ q + 1 ≠ tableEnd m t ∧
      ∀ k, IsKind m k q → q + Kind.size k ≤ tableEnd m t ∧ (s k).count < 32 := by
  have hlen := sdtLen_lt m t
  have hb : tableEnd m t < 2 ^ 34 := by unfold tableEnd; omega
  simp only [mem_accesses (show q + 1 < 2 ^ 47 by omega)]
  constructor
  · intro h
    refine ⟨?_, fun k hk => ⟨?_, h _ (Or.inr (Or.inr ⟨k, hk, Or.inr rfl⟩))⟩⟩
    · have hin := (inside_header_iff ht (by omega)).mp (h _ (Or.inr (Or.inl rfl)))
      omega
    · exact ((inside_entry_iff ht (by omega) k).mp (h _ (Or.inr (Or.inr ⟨k, hk, Or.inl rfl⟩)))).2
  · rintro ⟨hne, hrec⟩ ac (rfl | rfl | ⟨k, hk, rfl | rfl⟩)
    · exact (inside_header_iff ht (by omega)).mpr ⟨hge, hlt⟩
    · exact (inside_header_iff ht (by omega)).mpr ⟨by omega, by omega⟩
    · exact (inside_entry_iff ht (by omega) k).mpr ⟨by omega, (hrec k hk).1⟩
    · exact (hrec k hk).2

/-- **The loop stays in bounds** exactly on the tables that fit. -/
theorem bounded_iff (hs : ∀ k, (s k).count = 0) (hend : ∃ fuel, entriesLoop fuel m (ptr t) s ≠ none) :
    Bounded m (ptr t) s ↔ Fits m t := by
  have hlen := sdtLen_lt m t
  have hb : tableEnd m t < 2 ^ 34 := by unfold tableEnd; omega
  have hmem : ∀ {q}, q ∈ positions m t → t + 44 ≤ q ∧ q < tableEnd m t := fun hq =>
    ⟨((mem_positions ht hend).mp hq).1.le, ((mem_positions ht hend).mp hq).2⟩
  have hcount : ∀ {pre q post} (k : Kind), positions m t = pre ++ q :: post →
      (recordAll m pre s k).count = (pre.filter (IsKind m k ·)).length := by
    intro pre q post k he
    rw [count_recordAll s fun q' hq' => ?_, hs k, Nat.zero_add]
    have := (hmem (show q' ∈ positions m t by rw [he]; simp [hq'])).2
    omega
  constructor
  · intro h
    obtain ⟨fuel, hfuel⟩ := hend
    have hall := h fuel hfuel
    rw [loopAccesses_positions ht hfuel] at hall
    -- every iteration, in the state the entries before leave
    have hat : ∀ {pre q post}, positions m t = pre ++ q :: post → q + 1 ≠ tableEnd m t ∧
        ∀ k, IsKind m k q → q + Kind.size k ≤ tableEnd m t ∧ (recordAll m pre s k).count < 32 := by
      intro pre q post he
      obtain ⟨hge, hlt⟩ := hmem (show q ∈ positions m t by rw [he]; simp)
      exact (inside_accesses_iff ht hge hlt).mp fun ac hac =>
        hall ac ((mem_accessesAll s).mpr ⟨pre, q, post, he, hac⟩)
    refine ⟨fun q hq => ?_, fun q hq k hk => ?_, fun k => ?_⟩
    · obtain ⟨pre, post, he⟩ := List.append_of_mem hq
      exact (hat he).1
    · obtain ⟨pre, post, he⟩ := List.append_of_mem hq
      exact ((hat he).2 k hk).1
    · refine forall_split_lt_iff.mp fun pre q post he hk => ?_
      rw [← hcount k he]
      exact ((hat he).2 k (of_decide_eq_true hk)).2
  · intro h fuel hfuel ac hac
    rw [loopAccesses_positions ht hfuel] at hac
    obtain ⟨pre, q, post, he, hac⟩ := (mem_accessesAll s).mp hac
    have hq : q ∈ positions m t := by rw [he]; simp
    obtain ⟨hge, hlt⟩ := hmem hq
    refine (inside_accesses_iff ht hge hlt).mpr ⟨h.headers q hq, fun k hk =>
      ⟨h.entries q hq k hk, ?_⟩⟩ ac hac
    rw [hcount k he]
    exact forall_split_lt_iff.mpr (h.few k) pre q post he (decide_eq_true hk)

end Bounds

theorem fewEntries_fits : Fits fewEntries 0x1000 where
  headers := by decide +kernel
  entries q hq k := by
    revert q
    cases k <;> decide +kernel
  few k := by cases k <;> decide +kernel

theorem bounded_iff_few : Bounded fewEntries (ptr 0x1000) fresh :=
  (bounded_iff (by norm_num) (fun _ => rfl) ⟨7, by decide +kernel⟩).mpr fewEntries_fits

/-- With 45 bytes the length byte is read beyond the table. -/
theorem truncated_reads_beyond :
    (∃ fuel, entriesLoop fuel (oneEntry 45 2) (ptr 0x1000) fresh ≠ none) ∧
      ¬ Bounded (oneEntry 45 2) (ptr 0x1000) fresh := by
  have hend : entriesLoop 2 (oneEntry 45 2) (ptr 0x1000) fresh ≠ none := by decide
  refine ⟨⟨2, hend⟩, fun h => ?_⟩
  have hread : Access.header (ptr 0x102D) ∈ loopAccesses (oneEntry 45 2)
      (endPtr (oneEntry 45 2) (ptr 0x1000)) 2
      (entriesPtr (ptr 0x1000)) fresh := by decide
  have hin := (h 2 hend _ hread).2
  exact absurd hin (by decide)

end FusionCore.Acpi.MadtSpec
