import FusionCore.Lib.ByteMem

/-! # Addresses, pages and rounding (`mm/mm.h`)

`size_t`, `uint64_t` and `uintptr_t` values are numbers below `2 ^ 64`, with the wrap-around written out.
`PAGE_SIZE` is `4096` and is written as this number. Memory is physical memory: the kernel dereferences
physical addresses through the identity window and pointers made by `PHYS_TO_HIGHER_HALF_DATA` through
the direct map; `physOf` undoes both. -/

namespace FusionCore.Mm.Defs

open FusionCore.Lib.ByteMem

/-- `HIGHER_HALF_DATA`. -/
def higherHalfData : ℕ := 0xFFFF800000000000

/-- `HIGHER_HALF_CODE`. -/
def higherHalfCode : ℕ := 0xFFFFFFFF80000000

/-- `GiB`. -/
def gib : ℕ := 0x40000000

/-- `HEAP_MAX_SIZE`. -/
def heapMaxSize : ℕ := 4 * gib

/-- `HEAP_START_ADDR`. -/
def heapStartAddr : ℕ := 0xFFFF900000000000

/-- `KB_TO_PAGES(kb)`. -/
def kbToPages (kb : ℕ) : ℕ := kb * 1024 % 2 ^ 64 / 4096

/-- `ALIGN_UP(addr, align)`; `~(align - 1)` is `2 ^ 64 - align`. -/
def alignUp (addr align : ℕ) : ℕ := (addr + (align - 1)) % 2 ^ 64 &&& (2 ^ 64 - align)

/-- `ALIGN_DOWN(addr, align)`. -/
def alignDown (addr align : ℕ) : ℕ := addr &&& (2 ^ 64 - align)

/-- `BIT_TO_PAGE(bit)`. -/
def bitToPage (bit : ℕ) : ℕ := bit * 4096 % 2 ^ 64

/-- `PAGE_TO_BIT(page)`. -/
def pageToBit (page : ℕ) : ℕ := page / 4096

/-- `PHYS_TO_HIGHER_HALF_DATA(addr)`. -/
def physToHigherHalfData (addr : ℕ) : ℕ := (addr + higherHalfData) % 2 ^ 64

/-- The physical address behind a kernel pointer. -/
def physOf (v : ℕ) : ℕ := if higherHalfData ≤ v then v - higherHalfData else v

/-- Physical memory, together with the state `σ` of the page allocator. -/
structure Machine (σ : Type) where
  mem : Mem
  pmm : σ

/-- The bytes of the page at `p`. -/
def page (p : ℕ) : Set ℕ := Set.Ico p (p + 4096)

theorem mem_page {p a : ℕ} : a ∈ page p ↔ p ≤ a ∧ a < p + 4096 := Iff.rfl

/-! ### Rounding -/

theorem and_mask {a k : ℕ} (ha : a < 2 ^ 64) (hk : k ≤ 64) :
    a &&& (2 ^ 64 - 2 ^ k) = a / 2 ^ k * 2 ^ k := by
  refine Nat.eq_of_testBit_eq fun i => ?_
  have hm : 2 ^ 64 - 2 ^ k = (2 ^ (64 - k) - 1) * 2 ^ k := by
    rw [Nat.sub_mul, ← pow_add, Nat.sub_add_cancel hk, one_mul]
  rw [hm, Nat.testBit_and, Nat.testBit_mul_two_pow, Nat.testBit_mul_two_pow,
    Nat.testBit_two_pow_sub_one, Nat.testBit_div_two_pow]
  by_cases hi : k ≤ i
  · by_cases h64 : i < 64
    · simp [hi, show i - k < 64 - k by omega]
    · have : a.testBit i = false :=
        Nat.testBit_lt_two_pow (lt_of_lt_of_le ha (Nat.pow_le_pow_right (by norm_num) (by omega)))
      simp [this, Nat.sub_add_cancel hi]
  · simp [hi]

theorem alignDown_page {a : ℕ} (ha : a < 2 ^ 64) : alignDown a 4096 = a / 4096 * 4096 :=
  and_mask (k := 12) ha (by norm_num)

theorem alignUp_mod (a : ℕ) : alignUp a 4096 = (a + 4095) % 2 ^ 64 / 4096 * 4096 :=
  and_mask (k := 12) (Nat.mod_lt _ (by norm_num)) (by norm_num)

theorem alignUp_page {a : ℕ} (ha : a + 4095 < 2 ^ 64) :
    alignUp a 4096 = (a + 4095) / 4096 * 4096 := by
  rw [alignUp_mod, Nat.mod_eq_of_lt ha]

end FusionCore.Mm.Defs
