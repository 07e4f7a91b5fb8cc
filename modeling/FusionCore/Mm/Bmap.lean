import FusionCore.Mm.Defs
import Mathlib.Data.Nat.Bitwise

/-! # The page bitmap (`mm/bmap.c`)

The bit index is a C `int`: the callers' `uint64_t` indices go through `toInt`, and division truncates
towards zero. The shift by `bit % 8` is undefined in C where the remainder is negative; the mask
there is the one a compiler gets by `bit & 7`, and no result about the bits rests on it.

For a bitmap of `size` bytes placed at the physical address `base` (`Placed`) and indices inside it,
`bitmap_set` and `bitmap_clear` change exactly one bit (`bit_bitmapSet`, `bit_bitmapClear`). -/

namespace FusionCore.Mm.Bmap

open FusionCore.Lib.ByteMem FusionCore.Mm.Defs

/-- `bitmap_t`. -/
structure Bitmap where
  map : ℕ
  size : ℕ

/-- The conversion of a 64-bit index to `int`. -/
def toInt (n : ℕ) : ℤ :=
  if n % 2 ^ 32 < 2 ^ 31 then (n % 2 ^ 32 : ℕ) else (n % 2 ^ 32 : ℕ) - 2 ^ 32

/-- The address of the byte `map[bit / 8]`. -/
def byteAddr (bm : Bitmap) (bit : ℤ) : ℕ := physOf ((bm.map + bit.tdiv 8) % 2 ^ 64).toNat

/-- `1 << (bit % 8)`, as the byte it is combined with sees it; for a negative remainder
`1 << (bit & 7)`. -/
def bitMask (bit : ℤ) : UInt8 := UInt8.ofNat (2 ^ (bit % 8).toNat)

/-- `bitmap_set`. -/
def bitmapSet (m : Mem) (bm : Bitmap) (bit : ℤ) : Mem :=
  Function.update m (byteAddr bm bit) (m (byteAddr bm bit) ||| bitMask bit)

/-- `bitmap_clear`. -/
def bitmapClear (m : Mem) (bm : Bitmap) (bit : ℤ) : Mem :=
  Function.update m (byteAddr bm bit) (m (byteAddr bm bit) &&& ~~~ bitMask bit)

/-- `bitmap_get`. -/
def bitmapGet (m : Mem) (bm : Bitmap) (bit : ℤ) : UInt8 := m (byteAddr bm bit) &&& bitMask bit

/-- Bit `i` is set, as the callers test it. -/
def bit (m : Mem) (bm : Bitmap) (i : ℕ) : Bool := bitmapGet m bm (toInt i) != 0

/-! ### One byte -/

theorem and_bit_ne_zero (b : UInt8) {k : ℕ} (hk : k < 8) :
    (b &&& UInt8.ofNat (2 ^ k) != 0) = b.toNat.testBit k := by
  have h2 : 2 ^ k < 2 ^ 8 := Nat.pow_lt_pow_right (by norm_num) hk
  have hn : (b &&& UInt8.ofNat (2 ^ k)).toNat = (b.toNat.testBit k).toNat * 2 ^ k := by
    rw [UInt8.toNat_and, UInt8.toNat_ofNat', Nat.mod_eq_of_lt h2, Nat.and_two_pow]
  cases hb : b.toNat.testBit k with
  | false =>
    have : b &&& UInt8.ofNat (2 ^ k) = 0 := UInt8.toNat_inj.mp (by rw [hn, hb]; simp)
    simp [this]
  | true =>
    have : b &&& UInt8.ofNat (2 ^ k) ≠ 0 := fun h0 => by
      have := Nat.two_pow_pos k
      rw [hb, h0, Bool.toNat_true, one_mul] at hn
      simp only [UInt8.toNat_zero] at hn
      omega
    simp [this]

theorem testBit_or_bit (b : UInt8) {j k : ℕ} (hk : k < 8) :
    (b ||| UInt8.ofNat (2 ^ k)).toNat.testBit j = (b.toNat.testBit j || decide (k = j)) := by
  have h2 : 2 ^ k < 2 ^ 8 := Nat.pow_lt_pow_right (by norm_num) hk
  rw [UInt8.toNat_or, UInt8.toNat_ofNat', Nat.mod_eq_of_lt h2, Nat.testBit_or,
    Nat.testBit_two_pow]

theorem testBit_andNot_bit (b : UInt8) {j k : ℕ} (hj : j < 8) (hk : k < 8) :
    (b &&& ~~~ UInt8.ofNat (2 ^ k)).toNat.testBit j = (b.toNat.testBit j && !decide (k = j)) := by
  have h2 : 2 ^ k < 2 ^ 8 := Nat.pow_lt_pow_right (by norm_num) hk
  have hn : (~~~ UInt8.ofNat (2 ^ k)).toNat.testBit j = !decide (k = j) := by
    rw [UInt8.toNat_not, UInt8.toNat_ofNat', Nat.mod_eq_of_lt h2,
      show UInt8.size - 1 - 2 ^ k = 2 ^ 8 - (2 ^ k + 1) by simp [UInt8.size],
      Nat.testBit_two_pow_sub_succ h2, Nat.testBit_two_pow]
    simp [hj]
  rw [UInt8.toNat_and, Nat.testBit_and, hn]

/-! ### A placed bitmap -/

/-- The bitmap lies at the physical address `base`, inside the direct map, and its bit indices are
`int` values. -/
structure Placed (bm : Bitmap) (base : ℕ) : Prop where
  map_eq : bm.map = base + higherHalfData
  inWindow : base + bm.size ≤ 2 ^ 47

variable {bm : Bitmap} {base i j : ℕ} {m : Mem}

theorem toInt_of_lt (h : i < 2 ^ 31) : toInt i = i := by
  have hm : i % 2 ^ 32 = i := Nat.mod_eq_of_lt (by omega)
  rw [toInt, hm, if_pos h]

theorem byteAddr_of_lt (hp : Placed bm base) (hi : base + i / 8 < 2 ^ 47) (h31 : i < 2 ^ 31) :
    byteAddr bm (toInt i) = base + i / 8 := by
  have hd : ((i : ℤ)).tdiv 8 = (i / 8 : ℕ) := by
    rw [Int.tdiv_eq_ediv_of_nonneg (by omega)]; omega
  have hm : ((bm.map : ℤ) + (i / 8 : ℕ)) % 2 ^ 64 = (base + higherHalfData + i / 8 : ℕ) := by
    rw [hp.map_eq]
    rw [Int.emod_eq_of_lt (by omega) (by unfold higherHalfData; push_cast; omega)]
    push_cast; ring
  rw [byteAddr, toInt_of_lt h31, hd, hm, Int.toNat_natCast, physOf, if_pos (by omega)]
  omega

theorem byteAddr_placed (hp : Placed bm base) (hi : i < 8 * bm.size) (h31 : i < 2 ^ 31) :
    byteAddr bm (toInt i) = base + i / 8 :=
  byteAddr_of_lt hp (by have := hp.inWindow; omega) h31

theorem bitMask_of_lt (h31 : i < 2 ^ 31) : bitMask (toInt i) = UInt8.ofNat (2 ^ (i % 8)) := by
  have : ((i : ℤ) % 8).toNat = i % 8 := by omega
  rw [bitMask, toInt_of_lt h31, this]

theorem bit_placed (hp : Placed bm base) (hi : i < 8 * bm.size) (h31 : i < 2 ^ 31) :
    bit m bm i = (m (base + i / 8)).toNat.testBit (i % 8) := by
  rw [bit, bitmapGet, byteAddr_placed hp hi h31, bitMask_of_lt h31,
    and_bit_ne_zero _ (Nat.mod_lt i (by norm_num))]

theorem bit_bitmapClear_beyond (hp : Placed bm base) (hi : 8 * bm.size ≤ i) (hw : base + i / 8 < 2 ^ 47)
    (hi31 : i < 2 ^ 31) (hj : j < 8 * bm.size) (hj31 : j < 2 ^ 31) :
    bit (bitmapClear m bm (toInt i)) bm j = bit m bm j := by
  rw [bit_placed hp hj hj31, bit_placed hp hj hj31, bitmapClear, byteAddr_of_lt hp hw hi31,
    Function.update_of_ne (by omega)]

section Update
variable (hp : Placed bm base) (hi : i < 8 * bm.size) (hi31 : i < 2 ^ 31)
include hp hi hi31

/-- **`bitmap_set` sets exactly its bit.** -/
theorem bit_bitmapSet (hj : j < 8 * bm.size) (hj31 : j < 2 ^ 31) :
    bit (bitmapSet m bm (toInt i)) bm j = (bit m bm j || decide (i = j)) := by
  rw [bit_placed hp hj hj31, bit_placed hp hj hj31, bitmapSet, byteAddr_placed hp hi hi31,
    bitMask_of_lt hi31]
  by_cases hb : base + j / 8 = base + i / 8
  · rw [hb, Function.update_self, testBit_or_bit _ (Nat.mod_lt i (by norm_num))]
    congr 2
    exact propext ⟨fun h => by omega, fun h => by rw [h]⟩
  · rw [Function.update_of_ne hb]
    have : i ≠ j := fun h => hb (by rw [h])
    simp [this]

/-- **`bitmap_clear` clears exactly its bit.** -/
theorem bit_bitmapClear (hj : j < 8 * bm.size) (hj31 : j < 2 ^ 31) :
    bit (bitmapClear m bm (toInt i)) bm j = (bit m bm j && !decide (i = j)) := by
  rw [bit_placed hp hj hj31, bit_placed hp hj hj31, bitmapClear, byteAddr_placed hp hi hi31,
    bitMask_of_lt hi31]
  by_cases hb : base + j / 8 = base + i / 8
  · rw [hb, Function.update_self,
      testBit_andNot_bit _ (Nat.mod_lt j (by norm_num)) (Nat.mod_lt i (by norm_num))]
    congr 3
    exact propext ⟨fun h => by omega, fun h => by rw [h]⟩
  · rw [Function.update_of_ne hb]
    have : i ≠ j := fun h => hb (by rw [h])
    simp [this]

theorem bitmapSet_of_not_mem {b : ℕ} (hb : b ∉ Set.Ico base (base + bm.size)) :
    bitmapSet m bm (toInt i) b = m b := by
  rw [bitmapSet, byteAddr_placed hp hi hi31]
  refine Function.update_of_ne ?_ _ _
  rintro rfl
  exact hb ⟨by omega, by omega⟩

theorem bitmapClear_of_not_mem {b : ℕ} (hb : b ∉ Set.Ico base (base + bm.size)) :
    bitmapClear m bm (toInt i) b = m b := by
  rw [bitmapClear, byteAddr_placed hp hi hi31]
  refine Function.update_of_ne ?_ _ _
  rintro rfl
  exact hb ⟨by omega, by omega⟩

theorem bitmapClear_bitmapSet (hc : bit m bm i = false) :
    bitmapClear (bitmapSet m bm (toInt i)) bm (toInt i) = m := by
  rw [bit_placed hp hi hi31] at hc
  rw [bitmapClear, bitmapSet, byteAddr_placed hp hi hi31, bitMask_of_lt hi31,
    Function.update_self, Function.update_idem]
  have h8 : i % 8 < 8 := Nat.mod_lt i (by norm_num)
  refine Function.update_eq_self_iff.mpr ?_
  refine UInt8.toNat_inj.mp (Nat.eq_of_testBit_eq fun j => ?_)
  by_cases hj : j < 8
  · rw [testBit_andNot_bit _ hj h8, testBit_or_bit _ h8]
    by_cases hij : i % 8 = j
    · simp [← hij, hc]
    · simp [hij]
  · have hlt : ∀ b : UInt8, b.toNat.testBit j = false := fun b =>
      Nat.testBit_lt_two_pow (lt_of_lt_of_le b.toNat_lt (Nat.pow_le_pow_right (by norm_num) (by omega)))
    rw [hlt, hlt]

end Update

end FusionCore.Mm.Bmap
