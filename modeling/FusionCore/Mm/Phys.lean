import FusionCore.Mm.Bmap

/-! # The physical memory manager (`mm/phys.c`)

The allocator's statics are `Pmm`; the bitmap itself lies in memory. `pmm_init` takes the stivale2 memory
map as a list of entries and returns it as it leaves it (it shortens the entry that houses the bitmap).
The messages it logs are left out.

The loops are recursions on the number of iterations done or left. What a loop does is stated once, for
a bitmap placed in memory: `bit_setBits`, `bit_clearBits`, and `getFfpRange_eq` for the search. -/

namespace FusionCore.Mm.Phys

open FusionCore.Lib.ByteMem FusionCore.Mm.Defs FusionCore.Mm.Bmap

/-- The type of a memory-map entry. -/
inductive MmapType
  | usable
  | reserved
  | acpiReclaimable
  | acpiNvs
  | badMemory
  | bootloaderReclaimable
  | kernelAndModules
  | framebuffer
  | unknown (code : ℕ)
  deriving DecidableEq, Repr

/-- `struct stivale2_mmap_entry`. -/
structure MmapEntry where
  base : ℕ
  length : ℕ
  type : MmapType
  deriving DecidableEq, Repr

/-- `pmm_bitmap`, `hi_page_top` and `used_page_cnt`. -/
structure Pmm where
  bitmap : Bitmap
  hiPageTop : ℕ
  usedPageCnt : ℕ

/-! ### Allocation -/

/-- The inner loop of `_get_ffp_range` with `k` iterations left: does it return at `allBitsI`? The
offset of the bit it tests is `PAGE_TO_BIT(page_cnt_i)`. -/
def ffpInner (bit : ℕ → Bool) (allBitsI pageCnt : ℕ) : ℕ → ℕ → Bool
  | 0, _ => false
  | k + 1, pageCntI =>
    if bit ((allBitsI + pageToBit pageCntI) % 2 ^ 64) then false
    else if pageCntI = pageCnt - 1 then true
    else ffpInner bit allBitsI pageCnt k (pageCntI + 1)

/-- The outer loop with `k` iterations left. -/
def ffpOuter (bit : ℕ → Bool) (pageCnt : ℕ) : ℕ → ℕ → ℕ
  | 0, _ => 0
  | k + 1, allBitsI =>
    if ffpInner bit allBitsI pageCnt pageCnt 0 then bitToPage allBitsI
    else ffpOuter bit pageCnt k (allBitsI + 1)

/-- `_get_ffp_range`. -/
def getFfpRange (s : Machine Pmm) (pageCnt : ℕ) : ℕ :=
  ffpOuter (bit s.mem s.pmm.bitmap) pageCnt (pageToBit s.pmm.hiPageTop) 0

/-- The loop of `pmm_alloc`: set the `n` bits from `index` on. -/
def setBits (bm : Bitmap) (index : ℕ) : ℕ → Mem → Mem
  | 0, m => m
  | n + 1, m => bitmapSet (setBits bm index n m) bm (toInt ((index + n) % 2 ^ 64))

/-- The loop of `pmm_free`: clear the `n` bits from `index` on. -/
def clearBits (bm : Bitmap) (index : ℕ) : ℕ → Mem → Mem
  | 0, m => m
  | n + 1, m => bitmapClear (clearBits bm index n m) bm (toInt ((index + n) % 2 ^ 64))

/-- `pmm_alloc`. -/
def pmmAlloc (s : Machine Pmm) (pageCnt : ℕ) : ℕ × Machine Pmm :=
  if s.pmm.usedPageCnt ≤ 0 then (0, s)
  else
    let ptr := getFfpRange s pageCnt
    if ptr = 0 then (0, s)
    else
      let index := pageToBit ptr
      (bitToPage index,
        { mem := setBits s.pmm.bitmap index pageCnt s.mem
          pmm := { s.pmm with usedPageCnt := (s.pmm.usedPageCnt + pageCnt) % 2 ^ 64 } })

/-- `pmm_allocz`; the `memset` is done also when `pmm_alloc` has returned NULL. -/
def pmmAllocz (s : Machine Pmm) (pageCnt : ℕ) : ℕ × Machine Pmm :=
  let r := pmmAlloc s pageCnt
  (r.1, { r.2 with mem := fill r.2.mem r.1 (4096 * pageCnt % 2 ^ 64) 0 })

/-- `pmm_free`. -/
def pmmFree (s : Machine Pmm) (ptr pageCnt : ℕ) : Machine Pmm :=
  { mem := clearBits s.pmm.bitmap (pageToBit ptr) pageCnt s.mem
    pmm := { s.pmm with usedPageCnt := (s.pmm.usedPageCnt + (2 ^ 64 - pageCnt)) % 2 ^ 64 } }

/-! ### Initialisation -/

/-- The entries that raise `hi_page_top`. -/
def MmapType.counted : MmapType → Bool
  | .usable | .bootloaderReclaimable | .kernelAndModules => true
  | _ => false

/-- The first loop of `pmm_init`: the highest end of a counted entry. -/
def hiPageTop (mmap : List MmapEntry) : ℕ :=
  mmap.foldl (fun hi e =>
    if e.type.counted then
      if (e.base + e.length) % 2 ^ 64 > hi then (e.base + e.length) % 2 ^ 64 else hi
    else hi) 0

/-- `pmm_bitmap.size`. -/
def bitmapSize (hi : ℕ) : ℕ := alignUp (alignDown hi 4096 / 4096 / 8) 4096

/-- The second loop of `pmm_init`: the first usable entry that can hold the bitmap gives it its pages.
Without one, `pmm_bitmap.map` stays NULL. -/
def placeBitmap (size : ℕ) : List MmapEntry → ℕ × List MmapEntry
  | [] => (0, [])
  | e :: mmap =>
    if e.type = .usable ∧ size ≤ e.length then
      (physToHigherHalfData e.base,
        { e with base := (e.base + size) % 2 ^ 64, length := e.length - size } :: mmap)
    else ((placeBitmap size mmap).1, e :: (placeBitmap size mmap).2)

/-- The third loop of `pmm_init`: free the pages of the usable entries. -/
def freeUsable (mmap : List MmapEntry) (s : Machine Pmm) : Machine Pmm :=
  mmap.foldl (fun s e => if e.type = .usable then pmmFree s e.base (e.length / 4096) else s) s

/-- `pmm_init`. -/
def pmmInit (mmap : List MmapEntry) (m : Mem) : Machine Pmm × List MmapEntry :=
  let hi := hiPageTop mmap
  let size := bitmapSize hi
  let placed := placeBitmap size mmap
  let bm : Bitmap := ⟨placed.1, size⟩
  let s := freeUsable placed.2 ⟨fill m (physOf bm.map) size 0xFF, ⟨bm, hi, kbToPages hi⟩⟩
  ({ s with mem := bitmapSet s.mem s.pmm.bitmap 0 }, placed.2)

/-! ### The search -/

theorem ffpInner_iff {f : ℕ → Bool} {i n : ℕ} : ∀ {k j : ℕ}, j + k = n →
    (ffpInner f i n k j = true ↔
      0 < k ∧ ∀ l, j ≤ l → l < n → f ((i + pageToBit l) % 2 ^ 64) = false)
  | 0, j, _ => by simp [ffpInner]
  | k + 1, j, h => by
    rw [ffpInner]
    by_cases hb : f ((i + pageToBit j) % 2 ^ 64) = true
    · rw [if_pos hb]
      refine ⟨by simp, fun ⟨_, hl⟩ => ?_⟩
      rw [hl j le_rfl (by omega)] at hb
      exact absurd hb (by simp)
    rw [if_neg hb]
    have hb' : f ((i + pageToBit j) % 2 ^ 64) = false := by simpa using hb
    by_cases hj : j = n - 1
    · rw [if_pos hj]
      refine ⟨fun _ => ⟨by omega, fun l h1 h2 => ?_⟩, fun _ => rfl⟩
      rw [show l = j by omega]
      exact hb'
    · rw [if_neg hj, ffpInner_iff (show (j + 1) + k = n by omega)]
      constructor
      · rintro ⟨_, hl⟩
        refine ⟨by omega, fun l h1 h2 => ?_⟩
        rcases Nat.eq_or_lt_of_le h1 with rfl | h1
        · exact hb'
        · exact hl l h1 h2
      · rintro ⟨_, hl⟩
        exact ⟨by omega, fun l h1 h2 => hl l (by omega) h2⟩

/-- The test `_get_ffp_range` makes at `i`: the bits at the offsets it looks at are clear. -/
def ScanClear (s : Machine Pmm) (n i : ℕ) : Prop :=
  ∀ j < n, bit s.mem s.pmm.bitmap ((i + pageToBit j) % 2 ^ 64) = false

theorem ffpInner_zero_iff {s : Machine Pmm} {i n : ℕ} :
    ffpInner (bit s.mem s.pmm.bitmap) i n n 0 = true ↔ 0 < n ∧ ScanClear s n i := by
  rw [ffpInner_iff (Nat.zero_add n)]
  simp [ScanClear]

theorem ffpOuter_eq {f : ℕ → Bool} {n : ℕ} : ∀ {k i : ℕ},
    (∃ r, i ≤ r ∧ r < i + k ∧ ffpInner f r n n 0 = true ∧
      (∀ r', i ≤ r' → r' < r → ffpInner f r' n n 0 = false) ∧ ffpOuter f n k i = bitToPage r) ∨
    ((∀ r, i ≤ r → r < i + k → ffpInner f r n n 0 = false) ∧ ffpOuter f n k i = 0)
  | 0, i => Or.inr ⟨fun r h1 h2 => by omega, rfl⟩
  | k + 1, i => by
    rw [ffpOuter]
    by_cases hi : ffpInner f i n n 0 = true
    · rw [if_pos hi]
      exact Or.inl ⟨i, le_rfl, by omega, hi, fun r' h1 h2 => by omega, rfl⟩
    · rw [if_neg hi]
      have hi' : ffpInner f i n n 0 = false := by simpa using hi
      have hfirst : ∀ {r}, i ≤ r → (i + 1 ≤ r → ffpInner f r n n 0 = false) →
          ffpInner f r n n 0 = false := by
        intro r h1 h2
        rcases Nat.eq_or_lt_of_le h1 with rfl | h1
        · exact hi'
        · exact h2 h1
      rcases ffpOuter_eq (f := f) (n := n) (k := k) (i := i + 1) with
        ⟨r, h1, h2, h3, h4, h5⟩ | ⟨h1, h2⟩
      · exact Or.inl ⟨r, by omega, by omega, h3,
          fun r' h6 h7 => hfirst h6 fun h8 => h4 r' h8 h7, h5⟩
      · exact Or.inr ⟨fun r h3 h4 => hfirst h3 fun h5 => h1 r h5 (by omega), h2⟩

/-- **The search**: the first index below the top whose test passes, or NULL if there is none. -/
theorem getFfpRange_eq (s : Machine Pmm) {n : ℕ} (hn : 0 < n) :
    (∃ i < pageToBit s.pmm.hiPageTop, ScanClear s n i ∧ (∀ i' < i, ¬ ScanClear s n i') ∧
      getFfpRange s n = bitToPage i) ∨
    ((∀ i < pageToBit s.pmm.hiPageTop, ¬ ScanClear s n i) ∧ getFfpRange s n = 0) := by
  have hf : ∀ {i}, ffpInner (bit s.mem s.pmm.bitmap) i n n 0 = false → ¬ ScanClear s n i := by
    intro i h hs
    rw [ffpInner_zero_iff.mpr ⟨hn, hs⟩] at h
    exact absurd h (by simp)
  rcases ffpOuter_eq (f := bit s.mem s.pmm.bitmap) (n := n)
    (k := pageToBit s.pmm.hiPageTop) (i := 0) with ⟨r, -, h2, h3, h4, h5⟩ | ⟨h1, h2⟩
  · exact Or.inl ⟨r, by omega, (ffpInner_zero_iff.mp h3).2,
      fun i' hi' => hf (h4 i' (Nat.zero_le _) hi'), h5⟩
  · exact Or.inr ⟨fun i hi => hf (h1 i (Nat.zero_le _) (by omega)), h2⟩

/-! ### The bits a range operation changes -/

section Bits
variable {bm : Bitmap} {base index : ℕ} {m : Mem} (hp : Placed bm base)
include hp

theorem bit_setBits : ∀ {n j : ℕ}, index + n ≤ 8 * bm.size → index + n ≤ 2 ^ 31 →
    j < 8 * bm.size → j < 2 ^ 31 →
    bit (setBits bm index n m) bm j = (bit m bm j || decide (index ≤ j ∧ j < index + n))
  | 0, j, _, _, _, _ => by
    have : ¬ (index ≤ j ∧ j < index + 0) := by omega
    rw [setBits, decide_eq_false this, Bool.or_false]
  | n + 1, j, h1, h2, h3, h4 => by
    have he : (index + n) % 2 ^ 64 = index + n := Nat.mod_eq_of_lt (by omega)
    rw [setBits, he, bit_bitmapSet hp (by omega) (by omega) h3 h4,
      bit_setBits (by omega) (by omega) h3 h4, Bool.or_assoc]
    congr 1
    rw [← Bool.decide_or]
    exact decide_eq_decide.mpr ⟨fun h => by omega, fun h => by omega⟩

theorem bit_clearBits_of_lt : ∀ {n j : ℕ}, (∀ i < index + n, base + i / 8 < 2 ^ 47) →
    index + n ≤ 2 ^ 31 → j < 8 * bm.size → j < 2 ^ 31 →
    bit (clearBits bm index n m) bm j = (bit m bm j && !decide (index ≤ j ∧ j < index + n))
  | 0, j, _, _, _, _ => by
    have : ¬ (index ≤ j ∧ j < index + 0) := by omega
    rw [clearBits, decide_eq_false this, Bool.not_false, Bool.and_true]
  | n + 1, j, h1, h2, h3, h4 => by
    have he : (index + n) % 2 ^ 64 = index + n := Nat.mod_eq_of_lt (by omega)
    have hlast : bit (clearBits bm index (n + 1) m) bm j =
        (bit (clearBits bm index n m) bm j && !decide (index + n = j)) := by
      rw [clearBits, he]
      by_cases hin : index + n < 8 * bm.size
      · rw [bit_bitmapClear hp hin (by omega) h3 h4]
      · rw [bit_bitmapClear_beyond hp (by omega) (h1 _ (by omega)) (by omega) h3 h4,
          decide_eq_false (by omega), Bool.not_false, Bool.and_true]
    rw [hlast, bit_clearBits_of_lt (fun i hi => h1 i (by omega)) (by omega) h3 h4, Bool.and_assoc]
    congr 1
    rw [← Bool.not_or, ← Bool.decide_or]
    congr 1
    exact decide_eq_decide.mpr ⟨fun h => by omega, fun h => by omega⟩

theorem bit_clearBits {n j : ℕ} (h1 : index + n ≤ 8 * bm.size) (h2 : index + n ≤ 2 ^ 31)
    (h3 : j < 8 * bm.size) (h4 : j < 2 ^ 31) :
    bit (clearBits bm index n m) bm j = (bit m bm j && !decide (index ≤ j ∧ j < index + n)) :=
  bit_clearBits_of_lt hp (fun i hi => by have := hp.inWindow; omega) h2 h3 h4

theorem setBits_of_not_mem {b : ℕ} (hb : b ∉ Set.Ico base (base + bm.size)) : ∀ {n : ℕ},
    index + n ≤ 8 * bm.size → index + n ≤ 2 ^ 31 → setBits bm index n m b = m b
  | 0, _, _ => rfl
  | n + 1, h1, h2 => by
    have he : (index + n) % 2 ^ 64 = index + n := Nat.mod_eq_of_lt (by omega)
    rw [setBits, he, bitmapSet_of_not_mem hp (by omega) (by omega) hb,
      setBits_of_not_mem hb (by omega) (by omega)]

theorem clearBits_of_not_mem {b : ℕ} (hb : b ∉ Set.Ico base (base + bm.size)) : ∀ {n : ℕ},
    index + n ≤ 8 * bm.size → index + n ≤ 2 ^ 31 → clearBits bm index n m b = m b
  | 0, _, _ => rfl
  | n + 1, h1, h2 => by
    have he : (index + n) % 2 ^ 64 = index + n := Nat.mod_eq_of_lt (by omega)
    rw [clearBits, he, bitmapClear_of_not_mem hp (by omega) (by omega) hb,
      clearBits_of_not_mem hb (by omega) (by omega)]

end Bits

end FusionCore.Mm.Phys
