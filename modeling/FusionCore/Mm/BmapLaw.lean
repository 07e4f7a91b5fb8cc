import FusionCore.Mm.Bmap

/-! # The bitmap as a set of indices

`BitLaw` is what makes the bitmap a set, for two of its indices: each can be set and cleared, every
access is to a byte of the map, and setting or clearing one leaves the other. The index passes
through an `int`, so the law holds of two indices exactly if their low 32 bits are no negative `int`
and differ (`bitLaw_iff`), and of a whole bitmap exactly up to `2 ^ 28` bytes (`allLaw_iff`). The
negative indices fail by the byte that is accessed, whatever the mask is. Those that become -1 to -7
access the first byte of the map by a shift that C does not define, and `bitLaw_iff` leaves them out. -/

namespace FusionCore.Mm.BmapLaw

open FusionCore.Lib.ByteMem FusionCore.Mm.Defs FusionCore.Mm.Bmap

/-- The pointer `map + bit / 8` of an access. -/
def accessAddr (bm : Bitmap) (bit : ℤ) : ℕ := ((bm.map + bit.tdiv 8) % 2 ^ 64).toNat

/-- The pointer is one to a byte of the map. -/
def Inside (bm : Bitmap) (v : ℕ) : Prop := ∃ k < bm.size, v = (bm.map + k) % 2 ^ 64

/-- **The law of one index**, as a caller passes it. -/
structure IndexLaw (bm : Bitmap) (i : ℕ) : Prop where
  inside : Inside bm (accessAddr bm (toInt i))
  set : ∀ m, bitmapGet (bitmapSet m bm (toInt i)) bm (toInt i) ≠ 0
  clear : ∀ m, bitmapGet (bitmapClear m bm (toInt i)) bm (toInt i) = 0

/-- Setting or clearing `i` does not change `j`. -/
structure Apart (bm : Bitmap) (i j : ℕ) : Prop where
  set : ∀ m, bitmapGet (bitmapSet m bm (toInt i)) bm (toInt j) = bitmapGet m bm (toInt j)
  clear : ∀ m, bitmapGet (bitmapClear m bm (toInt i)) bm (toInt j) = bitmapGet m bm (toInt j)

/-- The `int` is none of -1 to -7, for which the byte is `map[0]` and the shift has no meaning in C. -/
def ShiftDefined (i : ℕ) : Prop := i % 2 ^ 32 ≤ 2 ^ 32 - 8

/-- **The law of two indices.** -/
structure BitLaw (bm : Bitmap) (i j : ℕ) : Prop where
  fst : IndexLaw bm i
  snd : IndexLaw bm j
  apart : i ≠ j → Apart bm i j

/-! ### One byte -/

section Byte
variable (b : UInt8) {k k' : ℕ} (hk : k < 8)
include hk

theorem or_bit_and_bit : (b ||| UInt8.ofNat (2 ^ k)) &&& UInt8.ofNat (2 ^ k) ≠ 0 := by
  have h := and_bit_ne_zero (b ||| UInt8.ofNat (2 ^ k)) hk
  rw [testBit_or_bit b hk, decide_eq_true rfl, Bool.or_true] at h
  exact bne_iff_ne.mp h

theorem andNot_bit_and_bit : b &&& ~~~ UInt8.ofNat (2 ^ k) &&& UInt8.ofNat (2 ^ k) = 0 := by
  have h := and_bit_ne_zero (b &&& ~~~ UInt8.ofNat (2 ^ k)) hk
  rw [testBit_andNot_bit b hk hk, decide_eq_true rfl, Bool.not_true, Bool.and_false] at h
  exact bne_eq_false_iff_eq.mp h

theorem other_bit (hk' : k' < 8) (hne : k ≠ k') :
    (b ||| UInt8.ofNat (2 ^ k)) &&& UInt8.ofNat (2 ^ k') = b &&& UInt8.ofNat (2 ^ k') ∧
      b &&& ~~~ UInt8.ofNat (2 ^ k) &&& UInt8.ofNat (2 ^ k') = b &&& UInt8.ofNat (2 ^ k') := by
  have hmask : UInt8.ofNat (2 ^ k) &&& UInt8.ofNat (2 ^ k') = 0 ∧
      ~~~ UInt8.ofNat (2 ^ k) &&& UInt8.ofNat (2 ^ k') = UInt8.ofNat (2 ^ k') := by
    interval_cases k <;> interval_cases k' <;> first | exact absurd rfl hne | exact ⟨rfl, rfl⟩
  constructor
  · have hdistrib : (b ||| UInt8.ofNat (2 ^ k)) &&& UInt8.ofNat (2 ^ k') =
        b &&& UInt8.ofNat (2 ^ k') ||| UInt8.ofNat (2 ^ k) &&& UInt8.ofNat (2 ^ k') :=
      UInt8.toNat_inj.mp (by simp only [UInt8.toNat_and, UInt8.toNat_or, Nat.and_or_distrib_right])
    rw [hdistrib, hmask.1, UInt8.or_zero]
  · rw [UInt8.and_assoc, hmask.2]

end Byte

/-! ### Indices that are no negative `int` -/

theorem toInt_mod (i : ℕ) : toInt (i % 2 ^ 32) = toInt i := by
  rw [toInt, toInt, Nat.mod_mod]

theorem accessAddr_of_lt (bm : Bitmap) {i : ℕ} (hi : i < 2 ^ 31) :
    accessAddr bm (toInt i) = (bm.map + i / 8) % 2 ^ 64 := by
  have hdiv : (i : ℤ).tdiv 8 = (i / 8 : ℕ) := by
    rw [Int.tdiv_eq_ediv_of_nonneg (by omega)]
    omega
  rw [accessAddr, toInt_of_lt hi, hdiv]
  omega

theorem byteAddr_inj {bm : Bitmap} {i j : ℕ} (hi : i < 2 ^ 31) (hj : j < 2 ^ 31)
    (h : byteAddr bm (toInt i) = byteAddr bm (toInt j)) : i / 8 = j / 8 := by
  have hv : physOf ((bm.map + i / 8) % 2 ^ 64) = physOf ((bm.map + j / 8) % 2 ^ 64) := by
    rw [← accessAddr_of_lt bm hi, ← accessAddr_of_lt bm hj]
    exact h
  unfold physOf higherHalfData at hv
  split_ifs at hv <;> omega

section Small
variable {bm : Bitmap} {i j : ℕ} (hi : i < 2 ^ 31) (hj : j < 2 ^ 31)
include hi

theorem indexLaw_of_lt (hs : i < 8 * bm.size) : IndexLaw bm i := by
  have hk : i % 8 < 8 := Nat.mod_lt i (by norm_num)
  refine ⟨⟨i / 8, by omega, accessAddr_of_lt bm hi⟩, fun m => ?_, fun m => ?_⟩
  · rw [bitmapGet, bitmapSet, Function.update_self, bitMask_of_lt hi]
    exact or_bit_and_bit _ hk
  · rw [bitmapGet, bitmapClear, Function.update_self, bitMask_of_lt hi]
    exact andNot_bit_and_bit _ hk

include hj

theorem apart_of_ne (hne : i ≠ j) : Apart bm i j := by
  by_cases hb : byteAddr bm (toInt j) = byteAddr bm (toInt i)
  · have hbyte := byteAddr_inj hj hi hb
    have hother := fun b => other_bit b (Nat.mod_lt i (by norm_num : 0 < 8))
      (Nat.mod_lt j (by norm_num : 0 < 8)) (by omega)
    constructor <;> intro m
    · rw [bitmapGet, bitmapGet, bitmapSet, hb, Function.update_self, bitMask_of_lt hi, bitMask_of_lt hj]
      exact (hother _).1
    · rw [bitmapGet, bitmapGet, bitmapClear, hb, Function.update_self, bitMask_of_lt hi, bitMask_of_lt hj]
      exact (hother _).2
  · constructor <;> intro m
    · rw [bitmapGet, bitmapGet, bitmapSet, Function.update_of_ne hb]
    · rw [bitmapGet, bitmapGet, bitmapClear, Function.update_of_ne hb]

end Small

/-! ### Negative indices -/

section Exact
variable {bm : Bitmap} {i j : ℕ}

theorem nonneg_of_inside (hs : bm.size < 2 ^ 63) (hd : ShiftDefined i)
    (h : Inside bm (accessAddr bm (toInt i))) :
    i % 2 ^ 32 < 2 ^ 31 := by
  by_contra hneg
  have hint : toInt i = -((2 ^ 32 - i % 2 ^ 32 : ℕ) : ℤ) := by
    rw [toInt, if_neg hneg]
    omega
  have hdiv : (toInt i).tdiv 8 = -((2 ^ 32 - i % 2 ^ 32) / 8 : ℕ) := by
    rw [hint, Int.neg_tdiv, Int.tdiv_eq_ediv_of_nonneg (by omega)]
    rfl
  obtain ⟨k, hk, hv⟩ := h
  unfold ShiftDefined at hd
  rw [accessAddr, hdiv] at hv
  omega

theorem ne_of_apart (hi : IndexLaw bm i) (h : Apart bm i j) : i % 2 ^ 32 ≠ j % 2 ^ 32 := by
  intro he
  have hint : toInt j = toInt i := by rw [← toInt_mod j, ← he, toInt_mod]
  have hset := h.set fun _ => 0
  rw [hint] at hset
  refine hi.set (fun _ => 0) (hset.trans ?_)
  rw [bitmapGet, UInt8.zero_and]

/-- **The law of two indices**, exactly. -/
theorem bitLaw_iff (hs : bm.size < 2 ^ 63) (hi : i < 8 * bm.size) (hj : j < 8 * bm.size)
    (hid : ShiftDefined i) (hjd : ShiftDefined j) :
    BitLaw bm i j ↔
      i % 2 ^ 32 < 2 ^ 31 ∧ j % 2 ^ 32 < 2 ^ 31 ∧ (i ≠ j → i % 2 ^ 32 ≠ j % 2 ^ 32) := by
  have hlaw : ∀ {k}, k < 8 * bm.size → k % 2 ^ 32 < 2 ^ 31 → IndexLaw bm k := by
    intro k hk hk31
    have h := indexLaw_of_lt hk31 (lt_of_le_of_lt (Nat.mod_le k _) hk)
    constructor
    · rw [← toInt_mod]
      exact h.inside
    · rw [← toInt_mod]
      exact h.set
    · rw [← toInt_mod]
      exact h.clear
  constructor
  · intro h
    exact ⟨nonneg_of_inside hs hid h.fst.inside, nonneg_of_inside hs hjd h.snd.inside,
      fun hne => ne_of_apart h.fst (h.apart hne)⟩
  · rintro ⟨h1, h2, h3⟩
    refine ⟨hlaw hi h1, hlaw hj h2, fun hne => ?_⟩
    have h : Apart bm _ _ := apart_of_ne h1 h2 (h3 hne)
    constructor
    · rw [← toInt_mod i, ← toInt_mod j]
      exact h.set
    · rw [← toInt_mod i, ← toInt_mod j]
      exact h.clear

theorem allLaw_iff (hs : bm.size < 2 ^ 63) :
    (∀ i < 8 * bm.size, ∀ j < 8 * bm.size, BitLaw bm i j) ↔ bm.size ≤ 2 ^ 28 := by
  constructor
  · intro h
    by_contra hbig
    have hin : 2 ^ 31 < 8 * bm.size := by omega
    have hlaw := h _ hin _ hin
    -- the first negative index, with remainder 0
    have h31 := nonneg_of_inside hs (by norm_num [ShiftDefined]) hlaw.fst.inside
    norm_num at h31
  · intro hsmall i hi j hj
    have hdef : ∀ {k}, k < 8 * bm.size → ShiftDefined k := by
      intro k hk
      unfold ShiftDefined
      omega
    refine (bitLaw_iff hs hi hj (hdef hi) (hdef hj)).mpr ⟨by omega, by omega, fun hne => ?_⟩
    rw [Nat.mod_eq_of_lt (by omega), Nat.mod_eq_of_lt (by omega)]
    exact hne

end Exact

/-- **The bitmap as a set**: which pairs of indices the law holds of, and which bitmaps it holds of all
over. -/
theorem bitmapLaw_iff (bm : Bitmap) (hs : bm.size < 2 ^ 63) :
    (∀ i < 8 * bm.size, ∀ j < 8 * bm.size, ShiftDefined i → ShiftDefined j → (BitLaw bm i j ↔
      i % 2 ^ 32 < 2 ^ 31 ∧ j % 2 ^ 32 < 2 ^ 31 ∧ (i ≠ j → i % 2 ^ 32 ≠ j % 2 ^ 32))) ∧
    ((∀ i < 8 * bm.size, ∀ j < 8 * bm.size, BitLaw bm i j) ↔ bm.size ≤ 2 ^ 28) :=
  ⟨fun _ hi _ hj hid hjd => bitLaw_iff hs hi hj hid hjd, allLaw_iff hs⟩

/-- One byte more than an `int` can index. -/
def bigBitmap : Bitmap := ⟨physToHigherHalfData 0x100000, 2 ^ 28 + 1⟩

theorem bitmapLaw_iff_big : BitLaw bigBitmap 5 (2 ^ 31 - 1) :=
  ((bitmapLaw_iff bigBitmap (by norm_num [bigBitmap])).1 5 (by norm_num [bigBitmap]) (2 ^ 31 - 1)
    (by norm_num [bigBitmap]) (by norm_num [ShiftDefined]) (by norm_num [ShiftDefined])).mpr (by norm_num)

/-- Its index `2 ^ 31` reaches the byte `2 ^ 28` bytes before the map. -/
theorem big_index_outside :
    2 ^ 31 < 8 * bigBitmap.size ∧
      accessAddr bigBitmap (toInt (2 ^ 31)) = physToHigherHalfData 0x100000 - 2 ^ 28 ∧
      ¬ BitLaw bigBitmap (2 ^ 31) 0 := by
  have haddr : accessAddr bigBitmap (toInt (2 ^ 31)) = physToHigherHalfData 0x100000 - 2 ^ 28 := by decide
  refine ⟨by norm_num [bigBitmap], haddr, fun h => ?_⟩
  obtain ⟨k, hk, hv⟩ := h.fst.inside
  rw [haddr] at hv
  simp only [bigBitmap, physToHigherHalfData, higherHalfData] at hk hv
  omega

end FusionCore.Mm.BmapLaw
