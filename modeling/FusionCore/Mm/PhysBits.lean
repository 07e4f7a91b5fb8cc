import FusionCore.Mm.PhysSpec

/-! # The bitmap: what `pmm_init` leaves in it, and which of its bits are touched

* `clear_iff_usable`: after `pmm_init` a bit is clear exactly for a page other than page 0 that lies in a
  usable entry of the original map and does not hold the bitmap.
* `bits_in_bitmap`: the bitmap has a bit for every page below the top exactly if the number of pages
  is not 1 to 7 above a multiple of 32768; then the frees of `pmm_init` stay inside it, and a later
  call does exactly if it is `Contained`.

The bit indices a call passes to `bitmap_get`, `bitmap_set` and `bitmap_clear` are lists read off the
loops of `phys.c` (`scanBits`, `rangeBits`). -/

namespace FusionCore.Mm.PhysBits

open FusionCore.Lib.ByteMem FusionCore.Lib.Runs
open FusionCore.Mm.Defs FusionCore.Mm.Bmap FusionCore.Mm.Phys FusionCore.Mm.PhysInit
open FusionCore.Mm.PhysRun FusionCore.Mm.PhysSpec

/-! ### After `pmm_init` -/

section Init
variable {mmap : List MmapEntry} (hwrap : ∀ e ∈ mmap, e.base + e.length < 2 ^ 64)
include hwrap

theorem end_le_top {e : MmapEntry} (he : e ∈ mmap) (hc : e.type.counted = true) :
    e.base + e.length ≤ hiPageTop mmap :=
  (foldl_top (B := 2 ^ 64) le_rfl (by norm_num) fun f hf _ => hwrap f hf).2.2 e he hc

theorem hiPageTop_lt_of_wrap : hiPageTop mmap < 2 ^ 64 :=
  (foldl_top (B := 2 ^ 64) le_rfl (by norm_num) fun f hf _ => hwrap f hf).2.1

/-- **The bits after `pmm_init`**, for every bit of the bitmap. -/
theorem clear_iff_usable (hw : WellFormed mmap) (htop : hiPageTop mmap < 2 ^ 43)
    (hhome : ∃ e ∈ mmap, e.type = .usable ∧ bitmapSize (hiPageTop mmap) ≤ e.length) (m : Mem) {i : ℕ}
    (hi : i < 8 * (pmmInit mmap m).1.pmm.bitmap.size) :
    bit (pmmInit mmap m).1.mem (pmmInit mmap m).1.pmm.bitmap i = false ↔
      i ≠ 0 ∧ (∃ e ∈ mmap, e.type = .usable ∧ page (4096 * i) ⊆ range e) ∧
      Disjoint (page (4096 * i)) (bitmapBytes mmap) := by
  have hb : EndsBelow mmap (2 ^ 43) := fun e he hc => lt_of_le_of_lt (end_le_top hwrap he hc) htop
  rw [pmmInit_bitmap] at hi ⊢
  rw [bit_pmmInit hw hb hhome m hi, MarkedFree]
  -- pages are aligned, and so are the usable entries and the bitmap
  have hent : ∀ e ∈ mmap, e.type = .usable → (4096 * i ∈ range e ↔ page (4096 * i) ⊆ range e) := by
    intro e he hu
    obtain ⟨h1, h2⟩ := hw.aligned e he hu
    refine ⟨fun h a ha => ?_, fun h => h ⟨le_rfl, by omega⟩⟩
    have h3 : e.base ≤ 4096 * i ∧ 4096 * i < e.base + e.length := h
    have h4 : 4096 * i ≤ a ∧ a < 4096 * i + 4096 := ha
    exact ⟨by omega, by omega⟩
  have hbm : 4096 * i ∉ bitmapBytes mmap ↔ Disjoint (page (4096 * i)) (bitmapBytes mmap) := by
    obtain ⟨pre, e, post, hh⟩ := exists_home hb hhome
    have h1 := (hw.aligned e (by rw [hh.mmap_eq]; simp) hh.usable).1
    have h2 : bitmapSize (hiPageTop mmap) % 4096 = 0 := by
      rw [bitmapSize_eq (by omega)]; omega
    rw [Set.disjoint_left]
    refine ⟨fun h a ha ha' => h ?_, fun h => h ⟨le_rfl, by omega⟩⟩
    rw [bitmapBytes, homeBase_eq hh] at ha' ⊢
    have h3 : 4096 * i ≤ a ∧ a < 4096 * i + 4096 := ha
    have h4 : e.base ≤ a ∧ a < e.base + bitmapSize (hiPageTop mmap) := ha'
    exact ⟨by omega, by omega⟩
  rw [hbm]
  constructor
  · rintro ⟨h1, -, ⟨e, he, hu, h2⟩, h3⟩
    exact ⟨h1, ⟨e, he, hu, (hent e he hu).mp h2⟩, h3⟩
  · rintro ⟨h1, ⟨e, he, hu, h2⟩, h3⟩
    have h4 := (hent e he hu).mpr h2
    have h5 : e.base ≤ 4096 * i ∧ 4096 * i < e.base + e.length := h4
    have h6 := end_le_top hwrap he (by rw [hu]; rfl)
    obtain ⟨h7, h8⟩ := hw.aligned e he hu
    exact ⟨h1, by unfold topPage pageToBit; omega, ⟨e, he, hu, h4⟩, h3⟩

end Init

/-- A map of several entries; the second houses the bitmap, in page 1. -/
def mixedMap : List MmapEntry :=
  [⟨0, 0x1000, .reserved⟩, ⟨0x1000, 0x4000, .usable⟩, ⟨0x5000, 0x1800, .acpiReclaimable⟩,
    ⟨0x6800, 0x800, .acpiNvs⟩, ⟨0x7000, 0x3000, .kernelAndModules⟩, ⟨0xa000, 0x6000, .usable⟩]

theorem mixedMap_wellFormed : WellFormed mixedMap where
  aligned := by decide
  disjoint := by
    simp only [mixedMap, List.pairwise_cons, List.Pairwise.nil, range]
    simp [Set.disjoint_left]
    omega

/-- Page 12 lies in a usable entry, page 8 in the kernel, and page 1 holds the bitmap. -/
theorem clear_iff_usable_mixedMap :
    bit (pmmInit mixedMap fun _ => 0).1.mem (pmmInit mixedMap fun _ => 0).1.pmm.bitmap 12 = false ∧
      bit (pmmInit mixedMap fun _ => 0).1.mem (pmmInit mixedMap fun _ => 0).1.pmm.bitmap 8 = true ∧
      bit (pmmInit mixedMap fun _ => 0).1.mem (pmmInit mixedMap fun _ => 0).1.pmm.bitmap 1 = true := by
  have hiff := fun i hi => clear_iff_usable (by decide) mixedMap_wellFormed (by decide) (by decide)
    (fun _ => 0) (i := i) hi
  have hhome : homeBase mixedMap = 0x1000 := by decide
  have hsize : bitmapSize (hiPageTop mixedMap) = 0x1000 := by decide
  refine ⟨(hiff 12 (by decide +kernel)).mpr ⟨by norm_num, ⟨⟨0xa000, 0x6000, .usable⟩, by decide, rfl, ?_⟩,
    ?_⟩, ?_, ?_⟩
  · exact Set.Ico_subset_Ico (by norm_num) (by norm_num)
  · rw [bitmapBytes, hhome, hsize]
    exact Set.Ico_disjoint_Ico.mpr (by norm_num)
  · rw [← Bool.not_eq_false, hiff 8 (by decide +kernel)]
    rintro ⟨-, ⟨e, he, hu, hsub⟩, -⟩
    have h8 := hsub (show 4096 * 8 ∈ page (4096 * 8) from ⟨le_rfl, by norm_num⟩)
    simp only [mixedMap, List.mem_cons, List.not_mem_nil, or_false] at he
    rcases he with rfl | rfl | rfl | rfl | rfl | rfl <;> simp_all [range]
  · rw [← Bool.not_eq_false, hiff 1 (by decide +kernel), bitmapBytes, hhome, hsize]
    rintro ⟨-, -, hdis⟩
    exact Set.disjoint_left.mp hdis (show 4096 ∈ page (4096 * 1) from ⟨by norm_num, by norm_num⟩)
      ⟨by norm_num, by norm_num⟩

/-! ### The bits a call touches -/

/-- The bits the inner loop of `_get_ffp_range` tests, with `k` iterations left. -/
def innerBits (bit : ℕ → Bool) (allBitsI pageCnt : ℕ) : ℕ → ℕ → List ℕ
  | 0, _ => []
  | k + 1, pageCntI =>
    let b := (allBitsI + pageToBit pageCntI) % 2 ^ 64
    b :: if bit b then [] else if pageCntI = pageCnt - 1 then []
      else innerBits bit allBitsI pageCnt k (pageCntI + 1)

/-- The bits the outer loop tests. -/
def outerBits (bit : ℕ → Bool) (pageCnt : ℕ) : ℕ → ℕ → List ℕ
  | 0, _ => []
  | k + 1, allBitsI =>
    innerBits bit allBitsI pageCnt pageCnt 0 ++
      if ffpInner bit allBitsI pageCnt pageCnt 0 then [] else outerBits bit pageCnt k (allBitsI + 1)

/-- The bits `_get_ffp_range` tests. -/
def scanBits (s : Machine Pmm) (pageCnt : ℕ) : List ℕ :=
  outerBits (bit s.mem s.pmm.bitmap) pageCnt (pageToBit s.pmm.hiPageTop) 0

/-- The bits the loops of `pmm_alloc` and `pmm_free` set or clear for the pages from `ptr` on. -/
def rangeBits (ptr pageCnt : ℕ) : List ℕ := (List.range pageCnt).map fun i => (pageToBit ptr + i) % 2 ^ 64

/-- The bits `pmm_alloc` touches. -/
def allocBits (s : Machine Pmm) (pageCnt : ℕ) : List ℕ :=
  if s.pmm.usedPageCnt ≤ 0 then []
  else scanBits s pageCnt ++
    if getFfpRange s pageCnt = 0 then [] else rangeBits (getFfpRange s pageCnt) pageCnt

/-- The bits a call touches. -/
def opBits (s : PmmState) : PmmOp → List ℕ
  | .alloc n => allocBits s.machine n
  | .free p n => rangeBits p n

/-- The bits the frees of `pmm_init` touch. -/
def initBits (mmap : List MmapEntry) : List ℕ :=
  (placed mmap).2.flatMap fun e => if e.type = .usable then rangeBits e.base (e.length / 4096) else []

/-- **The condition on an allocation**: behind the first index that passes the search's test there is
room for the pages asked for, and no index the search comes to has only clear bits up to the end of
the bitmap and fewer of them than it tests (it tests one for every 4096 pages asked for). -/
structure Room (s : Machine Pmm) (n : ℕ) : Prop where
  range : ∀ i, 0 < i → i < pageToBit s.pmm.hiPageTop → ScanClear s n i → (∀ i' < i, ¬ ScanClear s n i') →
    i + n ≤ 8 * s.pmm.bitmap.size
  scan : ∀ i < pageToBit s.pmm.hiPageTop, (∀ i' < i, ¬ ScanClear s n i') →
    (∀ b, i ≤ b → b < 8 * s.pmm.bitmap.size → bit s.mem s.pmm.bitmap b = false) →
    i + (n - 1) / 4096 < 8 * s.pmm.bitmap.size

/-- A call that stays inside the bitmap. -/
def Contained (s : PmmState) : PmmOp → Prop
  | .alloc n => s.machine.pmm.usedPageCnt = 0 ∨ Room s.machine n
  | .free _ _ => True

theorem mem_innerBits {f : ℕ → Bool} {i n x : ℕ} : ∀ {k j : ℕ}, j + k = n →
    (x ∈ innerBits f i n k j ↔ ∃ l, j ≤ l ∧ l < n ∧
      (∀ l', j ≤ l' → l' < l → f ((i + pageToBit l') % 2 ^ 64) = false) ∧ x = (i + pageToBit l) % 2 ^ 64)
  | 0, j, h => by
    simp only [innerBits, List.not_mem_nil, false_iff]
    rintro ⟨l, h1, h2, -⟩
    omega
  | k + 1, j, h => by
    rw [innerBits, List.mem_cons]
    have hfirst : x = (i + pageToBit j) % 2 ^ 64 → ∃ l, j ≤ l ∧ l < n ∧
        (∀ l', j ≤ l' → l' < l → f ((i + pageToBit l') % 2 ^ 64) = false) ∧
        x = (i + pageToBit l) % 2 ^ 64 :=
      fun hx => ⟨j, le_rfl, by omega, fun l' h1 h2 => by omega, hx⟩
    by_cases hb : f ((i + pageToBit j) % 2 ^ 64) = true
    · rw [if_pos hb]
      refine ⟨fun hx => hfirst (by simpa using hx), ?_⟩
      rintro ⟨l, h1, h2, h3, h4⟩
      rcases Nat.eq_or_lt_of_le h1 with rfl | h1
      · exact Or.inl h4
      · rw [h3 j le_rfl h1] at hb
        exact absurd hb (by simp)
    rw [if_neg hb]
    have hb' : f ((i + pageToBit j) % 2 ^ 64) = false := by simpa using hb
    by_cases hj : j = n - 1
    · rw [if_pos hj]
      refine ⟨fun hx => hfirst (by simpa using hx), ?_⟩
      rintro ⟨l, h1, h2, h3, h4⟩
      rw [show l = j by omega] at h4
      exact Or.inl h4
    · rw [if_neg hj, mem_innerBits (show (j + 1) + k = n by omega)]
      constructor
      · rintro (hx | ⟨l, h1, h2, h3, h4⟩)
        · exact hfirst hx
        · refine ⟨l, by omega, h2, fun l' h5 h6 => ?_, h4⟩
          rcases Nat.eq_or_lt_of_le h5 with rfl | h5
          · exact hb'
          · exact h3 l' h5 h6
      · rintro ⟨l, h1, h2, h3, h4⟩
        rcases Nat.eq_or_lt_of_le h1 with rfl | h1
        · exact Or.inl h4
        · exact Or.inr ⟨l, h1, h2, fun l' h5 h6 => h3 l' (by omega) h6, h4⟩

theorem mem_outerBits {f : ℕ → Bool} {n x : ℕ} : ∀ {k i : ℕ}, (x ∈ outerBits f n k i ↔
    ∃ r, i ≤ r ∧ r < i + k ∧ (∀ r', i ≤ r' → r' < r → ffpInner f r' n n 0 = false) ∧
      x ∈ innerBits f r n n 0)
  | 0, i => by
    simp only [outerBits, List.not_mem_nil, false_iff]
    rintro ⟨r, h1, h2, -⟩
    omega
  | k + 1, i => by
    rw [outerBits, List.mem_append]
    by_cases hi : ffpInner f i n n 0 = true
    · rw [if_pos hi]
      constructor
      · rintro (hx | hx)
        · exact ⟨i, le_rfl, by omega, fun r' h1 h2 => by omega, hx⟩
        · simp at hx
      · rintro ⟨r, h1, h2, h3, h4⟩
        rcases Nat.eq_or_lt_of_le h1 with rfl | h1
        · exact Or.inl h4
        · rw [h3 i le_rfl h1] at hi
          exact absurd hi (by simp)
    · rw [if_neg hi, mem_outerBits]
      have hi' : ffpInner f i n n 0 = false := by simpa using hi
      constructor
      · rintro (hx | ⟨r, h1, h2, h3, h4⟩)
        · exact ⟨i, le_rfl, by omega, fun r' h1 h2 => by omega, hx⟩
        · refine ⟨r, by omega, by omega, fun r' h5 h6 => ?_, h4⟩
          rcases Nat.eq_or_lt_of_le h5 with rfl | h5
          · exact hi'
          · exact h3 r' h5 h6
      · rintro ⟨r, h1, h2, h3, h4⟩
        rcases Nat.eq_or_lt_of_le h1 with rfl | h1
        · exact Or.inl h4
        · exact Or.inr ⟨r, h1, by omega, fun r' h5 h6 => h3 r' (by omega) h6, h4⟩

theorem mem_scanBits {s : Machine Pmm} {n x : ℕ} (hn : 0 < n) : x ∈ scanBits s n ↔
    ∃ i < pageToBit s.pmm.hiPageTop, (∀ i' < i, ¬ ScanClear s n i') ∧ ∃ l < n,
      (∀ l' < l, bit s.mem s.pmm.bitmap ((i + pageToBit l') % 2 ^ 64) = false) ∧
      x = (i + pageToBit l) % 2 ^ 64 := by
  have hfalse : ∀ i, ffpInner (bit s.mem s.pmm.bitmap) i n n 0 = false ↔ ¬ ScanClear s n i := by
    intro i
    rw [← Bool.not_eq_true, ffpInner_zero_iff]
    simp [hn]
  rw [scanBits, mem_outerBits]
  simp only [Nat.zero_le, true_and, forall_const, Nat.zero_add, hfalse, mem_innerBits (Nat.zero_add n)]

/-- **A search and the range it finds stay inside the bitmap exactly if there is room.** -/
theorem allocBits_lt_iff {s : Machine Pmm} {n : ℕ} (hu : s.pmm.usedPageCnt ≠ 0) (hn : 1 ≤ n)
    (hn64 : n < 2 ^ 64) (hcov : pageToBit s.pmm.hiPageTop ≤ 8 * s.pmm.bitmap.size)
    (hB : 8 * s.pmm.bitmap.size < 2 ^ 63) (htop : pageToBit s.pmm.hiPageTop < 2 ^ 52) :
    (∀ b ∈ allocBits s n, b < 8 * s.pmm.bitmap.size) ↔ Room s n := by
  set B := 8 * s.pmm.bitmap.size with hBdef
  have hlt : ∀ {i l : ℕ}, i < pageToBit s.pmm.hiPageTop → l < n →
      (i + pageToBit l) % 2 ^ 64 = i + l / 4096 := fun hi hl =>
    Nat.mod_eq_of_lt (by unfold pageToBit; omega)
  rw [allocBits, if_neg (by omega)]
  constructor
  · intro h
    refine ⟨fun i hi0 hi h1 h2 => ?_, fun i hi h1 h2 => ?_⟩
    · -- the range found begins at `i`
      rcases getFfpRange_eq s (Nat.lt_of_lt_of_le Nat.zero_lt_one hn) with
        ⟨r, hr, h3, h4, h5⟩ | ⟨h3, -⟩
      swap
      · exact absurd h1 (h3 i hi)
      have hri : r = i := by
        rcases Nat.lt_trichotomy r i with h6 | h6 | h6
        · exact absurd h3 (h2 r h6)
        · exact h6
        · exact absurd h1 (h4 i h6)
      rw [hri] at h5
      have hp : getFfpRange s n = 4096 * i := by
        rw [h5]; unfold bitToPage; omega
      by_contra hle
      have hmem : B ∈ scanBits s n ++
          if getFfpRange s n = 0 then [] else rangeBits (getFfpRange s n) n := by
        rw [hp, if_neg (by omega)]
        refine List.mem_append.mpr (Or.inr (List.mem_map.mpr ⟨B - i, List.mem_range.mpr ?_, ?_⟩))
        · omega
        · unfold pageToBit; omega
      exact absurd (h B hmem) (lt_irrefl B)
    · by_contra hge
      -- the bit behind the last one is tested
      have hmem : B ∈ scanBits s n := by
        refine (mem_scanBits hn).mpr ⟨i, hi, h1, 4096 * (B - i), by omega, fun l' hl' => ?_, ?_⟩
        · rw [hlt hi (by omega)]
          exact h2 _ (by omega) (by omega)
        · rw [hlt hi (by omega)]
          omega
      exact absurd (h B (List.mem_append.mpr (Or.inl hmem))) (lt_irrefl B)
  · rintro ⟨hrange, hscan⟩ b hb
    rcases List.mem_append.mp hb with hb | hb
    · obtain ⟨i, hi, h1, l, hl, h2, rfl⟩ := (mem_scanBits hn).mp hb
      rw [hlt hi hl]
      by_contra hge
      have := hscan i hi h1 fun c h3 h4 => by
        have h5 := h2 (4096 * (c - i)) (by omega)
        rwa [hlt hi (by omega), show i + 4096 * (c - i) / 4096 = c by omega] at h5
      omega
    · rcases getFfpRange_eq s (Nat.lt_of_lt_of_le Nat.zero_lt_one hn) with
        ⟨r, hr, h3, h4, h5⟩ | ⟨-, h3⟩
      swap
      · rw [if_pos h3] at hb
        simp at hb
      have hp : getFfpRange s n = 4096 * r := by
        rw [h5]; unfold bitToPage; omega
      rw [hp] at hb
      split_ifs at hb with h0
      · simp at hb
      · obtain ⟨k, hk, rfl⟩ := List.mem_map.mp hb
        have hk' := List.mem_range.mp hk
        have := hrange r (by omega) hr h3 h4
        unfold pageToBit
        omega

/-! ### Runs -/

/-- What a run of contained calls keeps. -/
structure Kept (mmap : List MmapEntry) (s : PmmState) : Prop where
  bitmap : s.machine.pmm.bitmap = bitmapOf mmap
  hi : s.machine.pmm.hiPageTop = hiPageTop mmap
  live : ∀ a ∈ s.live, a.1 / 4096 + a.2 ≤ 8 * bitmapSize (hiPageTop mmap)

theorem rangeBits_lt {p n B : ℕ} (h : p / 4096 + n ≤ B) (hB : B < 2 ^ 64) :
    ∀ b ∈ rangeBits p n, b < B := by
  intro b hb
  obtain ⟨i, hi, rfl⟩ := List.mem_map.mp hb
  have := List.mem_range.mp hi
  unfold pageToBit
  omega

theorem kept_step {mmap : List MmapEntry} {s s' : PmmState} {o : PmmOp} (hk : Kept mmap s)
    (htop : topPage mmap < 2 ^ 52) (hs : Step s o s') (hc : Contained s o) : Kept mmap s' := by
  obtain ⟨hv, rfl⟩ := hs
  cases o with
  | free p n => exact ⟨hk.bitmap, hk.hi, fun a ha => hk.live a (List.mem_of_mem_erase ha)⟩
  | alloc n =>
    rcases hc with h0 | hroom
    · have he : exec s (.alloc n) = s := by
        simp [exec, pmmAlloc, h0]
      rwa [he]
    have htb : pageToBit s.machine.pmm.hiPageTop = topPage mmap := by rw [hk.hi]; rfl
    have hstat : (pmmAlloc s.machine n).2.pmm.bitmap = s.machine.pmm.bitmap ∧
        (pmmAlloc s.machine n).2.pmm.hiPageTop = s.machine.pmm.hiPageTop := by
      unfold pmmAlloc
      dsimp only
      split_ifs <;> exact ⟨rfl, rfl⟩
    refine ⟨hstat.1.trans hk.bitmap, hstat.2.trans hk.hi, fun a ha => ?_⟩
    simp only [exec] at ha
    split_ifs at ha with hnull
    · exact hk.live a ha
    rcases List.mem_cons.mp ha with rfl | ha
    swap
    · exact hk.live a ha
    -- the range found has room behind it
    unfold pmmAlloc at hnull ⊢
    dsimp only at hnull ⊢
    split_ifs at hnull ⊢ with h1 h2
    · exact absurd rfl hnull
    · exact absurd rfl hnull
    · rcases getFfpRange_eq s.machine (Nat.lt_of_lt_of_le Nat.zero_lt_one hv.1) with
        ⟨r, hr, h3, h4, h5⟩ | ⟨-, h3⟩
      · rw [h5] at h2
        have hp : bitToPage r = 4096 * r := by unfold bitToPage; omega
        have := hroom.range r (by unfold bitToPage at h2; omega) hr h3 h4
        rw [hk.bitmap] at this
        rw [h5, hp, show pageToBit (4096 * r) = r by unfold pageToBit; omega, hp]
        show 4096 * r / 4096 + n ≤ _
        have hsz : (bitmapOf mmap).size = bitmapSize (hiPageTop mmap) := rfl
        omega
      · exact absurd h3 h2

/-- **The capacity of the bitmap.** It has a bit for every page below the top exactly if the number
of pages is not 1 to 7 above a multiple of 32768. Then the frees of `pmm_init` stay inside it, and in
every state of a run of contained calls a call stays inside it exactly if it is contained. -/
theorem bits_in_bitmap {mmap : List MmapEntry}
    (hwrap : ∀ e ∈ mmap, e.base + e.length < 2 ^ 64) (m : Mem) :
    ((∀ i < topPage mmap, i < 8 * bitmapSize (hiPageTop mmap)) ↔
      topPage mmap % 32768 = 0 ∨ 8 ≤ topPage mmap % 32768) ∧
    (topPage mmap % 32768 = 0 ∨ 8 ≤ topPage mmap % 32768 →
      (∀ b ∈ initBits mmap, b < 8 * bitmapSize (hiPageTop mmap)) ∧
      ∀ ops s, Run (fun s o s' => Step s o s' ∧ Contained s o) (start mmap m) ops s → ∀ o, Valid s o →
        ((∀ b ∈ opBits s o, b < 8 * s.machine.pmm.bitmap.size) ↔ Contained s o)) := by
  have hlt := hiPageTop_lt_of_wrap hwrap
  have hsize := bitmapSize_eq hlt
  have htop : topPage mmap = hiPageTop mmap / 4096 := rfl
  have hcap : (∀ i < topPage mmap, i < 8 * bitmapSize (hiPageTop mmap)) ↔
      topPage mmap % 32768 = 0 ∨ 8 ≤ topPage mmap % 32768 := by
    have hall : (∀ i < topPage mmap, i < 8 * bitmapSize (hiPageTop mmap)) ↔
        topPage mmap ≤ 8 * bitmapSize (hiPageTop mmap) := by
      refine ⟨fun h => ?_, fun h i hi => by omega⟩
      by_contra hgt
      exact absurd (h _ (by omega)) (lt_irrefl (8 * bitmapSize (hiPageTop mmap)))
    rw [hall, hsize, htop]
    omega
  refine ⟨hcap, fun hres => ?_⟩
  have hcov : topPage mmap ≤ 8 * bitmapSize (hiPageTop mmap) := by
    by_contra hgt
    exact absurd (hcap.mpr hres _ (by omega)) (lt_irrefl (8 * bitmapSize (hiPageTop mmap)))
  have hB : 8 * bitmapSize (hiPageTop mmap) < 2 ^ 63 := by omega
  refine ⟨fun b hb => ?_, fun ops s hr o hv => ?_⟩
  · obtain ⟨e, he, hb⟩ := List.mem_flatMap.mp hb
    split_ifs at hb with hu
    · refine rangeBits_lt (le_trans ?_ hcov) (by omega) b hb
      have hend : e.base + e.length ≤ hiPageTop mmap := by
        rcases placeBitmap_cases (bitmapSize (hiPageTop mmap)) mmap with
          ⟨pre, f, post, h1, h2, h3, h4⟩ | ⟨-, h2⟩
        · have hf : f.base + f.length ≤ hiPageTop mmap :=
            end_le_top hwrap (by rw [h1]; simp) (by rw [h2]; rfl)
          rw [placed, h4] at he
          rcases List.mem_append.mp he with he | he
          · exact end_le_top hwrap (by rw [h1]; simp [he]) (by rw [hu]; rfl)
          rcases List.mem_cons.mp he with rfl | he
          · dsimp only
            omega
          · exact end_le_top hwrap (by rw [h1]; simp [he]) (by rw [hu]; rfl)
        · rw [placed, h2] at he
          exact end_le_top hwrap he (by rw [hu]; rfl)
      omega
    · simp at hb
  · have hk : Kept mmap s := hr.invariant
      ⟨pmmInit_bitmap mmap m, pmmInit_hiPageTop mmap m, by simp [start]⟩
      fun _ _ _ hI hs => kept_step hI (by omega) hs.1 hs.2
    have hsz : s.machine.pmm.bitmap.size = bitmapSize (hiPageTop mmap) := by rw [hk.bitmap]; rfl
    have htb : pageToBit s.machine.pmm.hiPageTop = topPage mmap := by rw [hk.hi]; rfl
    cases o with
    | free p n =>
      refine iff_of_true (fun b hb => ?_) trivial
      rw [hsz]
      exact rangeBits_lt (hk.live _ hv) (by omega) b hb
    | alloc n =>
      by_cases h0 : s.machine.pmm.usedPageCnt = 0
      · refine iff_of_true (fun b hb => ?_) (Or.inl h0)
        simp [opBits, allocBits, h0] at hb
      · show (∀ b ∈ allocBits s.machine n, _) ↔ _ ∨ _
        rw [allocBits_lt_iff h0 hv.1 hv.2 (by omega) (by omega) (by omega)]
        simp [h0]

theorem bits_in_bitmap_smallMap : Contained (start smallMap fun _ => 0) (.alloc 1) ∧
    ∀ b ∈ opBits (start smallMap fun _ => 0) (.alloc 1),
      b < 8 * (start smallMap fun _ => 0).machine.pmm.bitmap.size := by
  have htop : pageToBit (start smallMap fun _ => 0).machine.pmm.hiPageTop = 33 := by decide +kernel
  have hsz : (start smallMap fun _ => 0).machine.pmm.bitmap.size = 4096 := by decide +kernel
  have hroom : Room (start smallMap fun _ => 0).machine 1 :=
    ⟨fun i _ hi _ _ => by omega, fun i hi _ _ => by omega⟩
  have hwrap : ∀ e ∈ smallMap, e.base + e.length < 2 ^ 64 := by decide
  exact ⟨Or.inr hroom, (((bits_in_bitmap hwrap fun _ => 0).2 (Or.inr (by decide))).2 [] _ .nil
    (.alloc 1) ⟨le_rfl, by norm_num⟩).mpr (Or.inr hroom)⟩

/-- One page more than a multiple of 32768: `pmm_init` clears a bit behind the bitmap. -/
theorem init_clears_beyond : ∃ b ∈ initBits [⟨4096, 32768 * 4096, .usable⟩],
    ¬ b < 8 * bitmapSize (hiPageTop [⟨4096, 32768 * 4096, .usable⟩]) := by
  have hplaced : (placed [⟨4096, 32768 * 4096, .usable⟩]).2 = [⟨8192, 32767 * 4096, .usable⟩] := by
    decide +kernel
  refine ⟨32768, ?_, by decide +kernel⟩
  rw [initBits, hplaced, List.flatMap_singleton, if_pos rfl]
  exact List.mem_map.mpr ⟨32766, List.mem_range.mpr (by norm_num), by unfold pageToBit; norm_num⟩

end FusionCore.Mm.PhysBits
