import FusionCore.Mm.PhysInit
import FusionCore.Lib.Runs

/-! # Runs of the physical memory manager

A run starts after `pmm_init` and makes `pmm_alloc` and `pmm_free` calls; `live` records the allocations
that have not been freed. The invariant `Inv`: a bit below the top is clear exactly for the pages marked
free that no live allocation covers, the live allocations are apart and lie in pages marked free, and the
counter is `initUsed` plus the live pages.

`_get_ffp_range` does not test every bit of the range it returns (`ScanClear`), so an allocation keeps the
invariant only when the range at the index it finds is free (`FirstFit`). For one page the two agree. -/

namespace FusionCore.Mm.PhysRun

open FusionCore.Lib.ByteMem FusionCore.Lib.Packing FusionCore.Lib.Runs
open FusionCore.Mm.Defs FusionCore.Mm.Bmap FusionCore.Mm.Phys FusionCore.Mm.PhysInit

/-- The allocator and its live allocations: pointer and page count. -/
structure PmmState where
  machine : Machine Pmm
  live : List (ℕ × ℕ)

/-- A call of the allocator. -/
inductive PmmOp
  | alloc (pageCnt : ℕ)
  | free (ptr pageCnt : ℕ)

/-- The effect of a call. -/
def exec (s : PmmState) : PmmOp → PmmState
  | .alloc n =>
    let r := pmmAlloc s.machine n
    ⟨r.2, if r.1 = 0 then s.live else (r.1, n) :: s.live⟩
  | .free p n => ⟨pmmFree s.machine p n, s.live.erase (p, n)⟩

/-- The calls of a run: counts are positive `size_t` values, and only live allocations are freed, with
the count they were allocated with. -/
def Valid (s : PmmState) : PmmOp → Prop
  | .alloc n => 1 ≤ n ∧ n < 2 ^ 64
  | .free p n => (p, n) ∈ s.live

/-- One call. -/
def Step (s : PmmState) (o : PmmOp) (s' : PmmState) : Prop := Valid s o ∧ s' = exec s o

/-- The state after `pmm_init`. -/
def start (mmap : List MmapEntry) (m : Mem) : PmmState := ⟨(pmmInit mmap m).1, []⟩

/-- Two allocations do not overlap. -/
def Apart (a b : ℕ × ℕ) : Prop := a.1 + a.2 * 4096 ≤ b.1 ∨ b.1 + b.2 * 4096 ≤ a.1

/-- **Safety of the live allocations**: pairwise apart, and each lies in pages marked free. -/
structure Safe (mmap : List MmapEntry) (live : List (ℕ × ℕ)) : Prop where
  apart : live.Pairwise Apart
  aligned : ∀ a ∈ live, a.1 % 4096 = 0
  marked : ∀ a ∈ live, ∀ k < a.2, MarkedFree mmap (a.1 / 4096 + k)

/-- A live allocation covers page `i`. -/
def Covered (live : List (ℕ × ℕ)) (i : ℕ) : Prop :=
  ∃ a ∈ live, a.1 / 4096 ≤ i ∧ i < a.1 / 4096 + a.2

/-- The pages of the live allocations, counted one allocation after the other. -/
def livePages (live : List (ℕ × ℕ)) : ℕ := (live.map Prod.snd).sum

/-- **The condition for an allocation of `n` pages**: the range that begins at the first index that
passes the search's test is free and below the top. -/
def FirstFit (s : Machine Pmm) (n : ℕ) : Prop :=
  ∀ i < pageToBit s.pmm.hiPageTop, ScanClear s n i → (∀ i' < i, ¬ ScanClear s n i') →
    ∀ k < n, i + k < pageToBit s.pmm.hiPageTop ∧ bit s.mem s.pmm.bitmap (i + k) = false

/-- A call that meets the condition. -/
def Meets (s : PmmState) : PmmOp → Prop
  | .alloc n => FirstFit s.machine n
  | .free _ _ => True

/-- **The invariant.** -/
structure Inv (mmap : List MmapEntry) (s : PmmState) : Prop where
  bitmap : s.machine.pmm.bitmap = bitmapOf mmap
  hi : s.machine.pmm.hiPageTop = hiPageTop mmap
  used : s.machine.pmm.usedPageCnt = initUsed mmap + livePages s.live
  bits : ∀ i < topPage mmap,
    (bit s.machine.mem (bitmapOf mmap) i = false ↔ MarkedFree mmap i ∧ ¬ Covered s.live i)
  safe : Safe mmap s.live
  pos : ∀ a ∈ s.live, 1 ≤ a.2

variable {mmap : List MmapEntry} {s : PmmState} {n : ℕ}

/-! ### Facts about the live allocations -/

theorem Apart.symm {a b : ℕ × ℕ} (h : Apart a b) : Apart b a := Or.symm h

/-- The page numbers of an allocation. -/
def pagesOf (a : ℕ × ℕ) : Finset ℕ := Finset.Ico (a.1 / 4096) (a.1 / 4096 + a.2)

theorem Safe.livePages_le (h : Safe mmap s.live) : livePages s.live ≤ topPage mmap := by
  have hc : livePages s.live = ((s.live.map pagesOf).map Finset.card).sum := by
    rw [livePages, List.map_map]
    congr 1
    exact List.map_congr_left fun a _ => by simp [pagesOf]
  rw [hc]
  refine sum_card_le ?_ fun t ht i hi => ?_
  · rw [List.pairwise_map]
    refine List.Pairwise.imp_of_mem ?_ h.apart
    intro a b ha hb hab
    have h1 := h.aligned a ha
    have h2 := h.aligned b hb
    refine Finset.disjoint_left.mpr fun i hi hi' => ?_
    simp only [pagesOf, Finset.mem_Ico] at hi hi'
    unfold Apart at hab
    omega
  · obtain ⟨a, ha, rfl⟩ := List.mem_map.mp ht
    simp only [pagesOf, Finset.mem_Ico] at hi
    have := (h.marked a ha (i - a.1 / 4096) (by omega)).2.1
    omega

theorem Safe.cons {i : ℕ} (h : Safe mmap s.live) (hpos : ∀ a ∈ s.live, 1 ≤ a.2) (hn : 1 ≤ n)
    (hrange : ∀ k < n, MarkedFree mmap (i + k) ∧ ¬ Covered s.live (i + k)) :
    Safe mmap ((4096 * i, n) :: s.live) := by
  refine ⟨List.pairwise_cons.mpr ⟨fun a ha => ?_, h.apart⟩, fun a ha => ?_, fun a ha k hk => ?_⟩
  · have h4 := h.aligned a ha
    have h5 := hpos a ha
    by_contra hov
    simp only [Apart, not_or, not_le] at hov
    -- an overlap would have a first common page, free and covered at once
    by_cases hle : a.1 / 4096 ≤ i
    · exact (hrange 0 (by omega)).2 ⟨a, ha, hle, by omega⟩
    · exact (hrange (a.1 / 4096 - i) (by omega)).2 ⟨a, ha, by omega, by omega⟩
  · rcases List.mem_cons.mp ha with rfl | ha
    · show 4096 * i % 4096 = 0
      omega
    · exact h.aligned a ha
  · rcases List.mem_cons.mp ha with rfl | ha
    · rw [show (4096 * i, n).1 / 4096 = i by dsimp only; omega]
      exact (hrange k hk).1
    · exact h.marked a ha k hk

theorem Safe.erase {a : ℕ × ℕ} (h : Safe mmap s.live) (ha : a ∈ s.live) :
    Safe mmap (s.live.erase a) ∧ ∀ b ∈ s.live.erase a, Apart a b := by
  have hp := (List.perm_cons_erase ha).pairwise_iff (fun h => Apart.symm h) |>.mp h.apart
  obtain ⟨h1, h2⟩ := List.pairwise_cons.mp hp
  exact ⟨⟨h2, fun b hb => h.aligned b (List.mem_of_mem_erase hb),
    fun b hb => h.marked b (List.mem_of_mem_erase hb)⟩, h1⟩

theorem covered_erase {a : ℕ × ℕ} {i : ℕ} (h : Safe mmap s.live) (ha : a ∈ s.live) :
    Covered (s.live.erase a) i ↔ Covered s.live i ∧ i ∉ pagesOf a := by
  obtain ⟨-, hap⟩ := h.erase ha
  constructor
  · rintro ⟨b, hb, h1, h2⟩
    refine ⟨⟨b, List.mem_of_mem_erase hb, h1, h2⟩, fun hi => ?_⟩
    simp only [pagesOf, Finset.mem_Ico] at hi
    have h3 := h.aligned a ha
    have h4 := h.aligned b (List.mem_of_mem_erase hb)
    have h5 := hap b hb
    unfold Apart at h5
    omega
  · rintro ⟨⟨b, hb, h1, h2⟩, hi⟩
    have hne : b ≠ a := by
      rintro rfl
      exact hi (Finset.mem_Ico.mpr ⟨h1, h2⟩)
    exact ⟨b, (List.mem_erase_of_ne hne).mpr hb, h1, h2⟩

theorem livePages_erase {a : ℕ × ℕ} (ha : a ∈ s.live) :
    livePages s.live = a.2 + livePages (s.live.erase a) := by
  unfold livePages
  rw [((List.perm_cons_erase ha).map Prod.snd).sum_eq]
  simp

/-! ### The counter -/

section Good
variable (hw : WellFormed mmap) (hf : Fits mmap)
include hw hf

theorem initUsed_bounds : topPage mmap ≤ initUsed mmap ∧ initUsed mmap < 2 ^ 52 ∧
    topPage mmap < 2 ^ 31 := by
  have hb : EndsBelow mmap (2 ^ 54) := fun e he hc => by have := hf.below e he hc; omega
  obtain ⟨h1, h2, h3⟩ := usablePages_placed_le hw hb
  have h4 := hiPageTop_lt hf.below (by norm_num) (by norm_num)
  unfold initUsed
  refine ⟨by omega, by omega, ?_⟩
  unfold topPage pageToBit
  omega

theorem inv_start (m : Mem) : Inv mmap (start mmap m) where
  bitmap := pmmInit_bitmap mmap m
  hi := pmmInit_hiPageTop mmap m
  used := used_pmmInit hw (fun e he hc => by have := hf.below e he hc; omega) m
  bits i hi := by
    have hb : bit (start mmap m).machine.mem (bitmapOf mmap) i = false ↔ MarkedFree mmap i :=
      bit_pmmInit hw hf.below hf.home m (lt_of_lt_of_le hi hf.covers)
    rw [hb]
    simp [start, Covered]
  safe := ⟨List.Pairwise.nil, by simp [start], by simp [start]⟩
  pos := by simp [start]

/-! ### Allocation -/

/-- **`pmm_alloc` in a state of the invariant**: the first index whose test passes, or NULL. -/
theorem pmmAlloc_cases (hI : Inv mmap s) (hn : 1 ≤ n) :
    (∃ i, 0 < i ∧ i < topPage mmap ∧ ScanClear s.machine n i ∧
      (∀ i' < i, ¬ ScanClear s.machine n i') ∧
      pmmAlloc s.machine n = (4096 * i,
        { mem := setBits (bitmapOf mmap) i n s.machine.mem
          pmm := { s.machine.pmm with
            usedPageCnt := (s.machine.pmm.usedPageCnt + n) % 2 ^ 64 } })) ∨
    ((∀ i < topPage mmap, ¬ ScanClear s.machine n i) ∧ pmmAlloc s.machine n = (0, s.machine)) := by
  obtain ⟨hu, -, ht⟩ := initUsed_bounds hw hf
  have htop : pageToBit s.machine.pmm.hiPageTop = topPage mmap := by rw [hI.hi]; rfl
  have hused := hI.used
  unfold pmmAlloc
  by_cases h0 : s.machine.pmm.usedPageCnt ≤ 0
  · rw [if_pos h0]
    exact Or.inr ⟨fun i hi => by omega, rfl⟩
  rw [if_neg h0]
  rcases getFfpRange_eq s.machine (Nat.lt_of_lt_of_le Nat.zero_lt_one hn) with
    ⟨i, hi, h1, h2, h3⟩ | ⟨h1, h2⟩
  · rw [htop] at hi
    -- bit 0 is set, so the search does not stop there
    have hi0 : i ≠ 0 := by
      rintro rfl
      have hb := h1 0 (by omega)
      rw [hI.bitmap] at hb
      exact ((hI.bits 0 hi).mp (by simpa [pageToBit] using hb)).1.1 rfl
    have hbp : bitToPage i = 4096 * i := by
      unfold bitToPage; omega
    have hpb : pageToBit (4096 * i) = i := by
      unfold pageToBit; omega
    refine Or.inl ⟨i, by omega, hi, h1, h2, ?_⟩
    simp only [h3, hbp, hpb, hI.bitmap]
    rw [if_neg (by omega)]
  · rw [htop] at h1
    exact Or.inr ⟨h1, by simp [h2]⟩

/-- **A first-fit allocation keeps the invariant.** -/
theorem inv_alloc (hI : Inv mmap s) (hn : 1 ≤ n) (hfit : FirstFit s.machine n) :
    Inv mmap (exec s (.alloc n)) := by
  rcases pmmAlloc_cases hw hf hI hn with ⟨i, hi0, hi, h1, h2, h3⟩ | ⟨-, h3⟩
  swap
  · have : exec s (.alloc n) = s := by simp [exec, h3]
    rw [this]; exact hI
  obtain ⟨-, hu, ht⟩ := initUsed_bounds hw hf
  obtain ⟨pre, e, post, hh⟩ := exists_home hf.below hf.home
  have hp := placed_bitmapOf hh
  have hcov : topPage mmap ≤ 8 * (bitmapOf mmap).size := hf.covers
  have htop : pageToBit s.machine.pmm.hiPageTop = topPage mmap := by rw [hI.hi]; rfl
  -- the range is free: below the top, marked, and covered by no live allocation
  have hrange : ∀ k < n, i + k < topPage mmap ∧ MarkedFree mmap (i + k) ∧
      ¬ Covered s.live (i + k) := by
    intro k hk
    obtain ⟨ha, hb⟩ := hfit i (by rw [htop]; exact hi) h1 h2 k hk
    rw [htop] at ha
    rw [hI.bitmap] at hb
    exact ⟨ha, (hI.bits _ ha).mp hb⟩
  have hin : i + n ≤ topPage mmap := by
    have := (hrange (n - 1) (by omega)).1
    omega
  have hlive : (exec s (.alloc n)).live = (4096 * i, n) :: s.live := by
    simp only [exec, h3]
    rw [if_neg (by omega)]
  have hmach : (exec s (.alloc n)).machine =
      { mem := setBits (bitmapOf mmap) i n s.machine.mem
        pmm := { s.machine.pmm with
          usedPageCnt := (s.machine.pmm.usedPageCnt + n) % 2 ^ 64 } } := by
    simp only [exec, h3]
  have hdiv : 4096 * i / 4096 = i := by omega
  have hsafe := hI.safe.cons hI.pos hn fun k hk => (hrange k hk).2
  refine ⟨by rw [hmach]; exact hI.bitmap, by rw [hmach]; exact hI.hi, ?_, fun j hj => ?_,
    by rw [hlive]; exact hsafe, fun a ha => ?_⟩
  · have hle : livePages ((4096 * i, n) :: s.live) ≤ topPage mmap :=
      Safe.livePages_le (s := ⟨s.machine, _⟩) hsafe
    rw [hmach, hlive]
    show (s.machine.pmm.usedPageCnt + n) % 2 ^ 64 = _
    rw [hI.used]
    simp only [livePages, List.map_cons, List.sum_cons] at hle ⊢
    omega
  · rw [hmach]
    show bit (setBits (bitmapOf mmap) i n s.machine.mem) (bitmapOf mmap) j = false ↔ _
    rw [bit_setBits hp (by omega) (by omega) (by omega) (by omega), Bool.or_eq_false_iff,
      hI.bits j hj, hlive]
    have hcons : Covered ((4096 * i, n) :: s.live) j ↔ (i ≤ j ∧ j < i + n) ∨ Covered s.live j := by
      unfold Covered
      simp [hdiv]
    rw [hcons, decide_eq_false_iff_not]
    rw [and_assoc, not_or, and_comm (a := ¬ Covered s.live j)]
  · rw [hlive] at ha
    rcases List.mem_cons.mp ha with rfl | ha
    · exact hn
    · exact hI.pos a ha

/-- **Freeing a live allocation keeps the invariant.** -/
theorem inv_free {p : ℕ} (hI : Inv mmap s) (hm : (p, n) ∈ s.live) :
    Inv mmap (exec s (.free p n)) := by
  obtain ⟨-, hu, ht⟩ := initUsed_bounds hw hf
  obtain ⟨pre, e, post, hh⟩ := exists_home hf.below hf.home
  have hp := placed_bitmapOf hh
  have hcov : topPage mmap ≤ 8 * (bitmapOf mmap).size := hf.covers
  have hsum := livePages_erase hm
  have hle := hI.safe.livePages_le
  have hin : n = 0 ∨ p / 4096 + n ≤ topPage mmap := by
    rcases Nat.eq_zero_or_pos n with h | h
    · exact Or.inl h
    · have := (hI.safe.marked _ hm (n - 1) (by show n - 1 < n; omega)).2.1
      exact Or.inr (by dsimp only at this; omega)
  refine ⟨hI.bitmap, hI.hi, ?_, fun j hj => ?_, (hI.safe.erase hm).1,
    fun a ha => hI.pos a (List.mem_of_mem_erase ha)⟩
  · show (s.machine.pmm.usedPageCnt + (2 ^ 64 - n)) % 2 ^ 64 =
      initUsed mmap + livePages (s.live.erase (p, n))
    rw [hI.used]
    dsimp only at hsum
    omega
  · show bit (clearBits s.machine.pmm.bitmap (pageToBit p) n s.machine.mem)
      (bitmapOf mmap) j = false ↔ _
    have hpg : j ∈ pagesOf (p, n) ↔ pageToBit p ≤ j ∧ j < pageToBit p + n := by
      rw [pagesOf, Finset.mem_Ico]; rfl
    have hbit : bit (clearBits (bitmapOf mmap) (pageToBit p) n s.machine.mem) (bitmapOf mmap) j =
        false ↔ bit s.machine.mem (bitmapOf mmap) j = false ∨ j ∈ pagesOf (p, n) := by
      rcases hin with rfl | hin
      · simp [clearBits, pagesOf]
      · rw [bit_clearBits hp (by unfold pageToBit; omega) (by unfold pageToBit; omega) (by omega)
          (by omega), hpg]
        by_cases hr : pageToBit p ≤ j ∧ j < pageToBit p + n <;> simp [hr]
    have hmk : j ∈ pagesOf (p, n) → MarkedFree mmap j := by
      intro hj'
      simp only [pagesOf, Finset.mem_Ico] at hj'
      have := hI.safe.marked _ hm (j - p / 4096) (by show _ < n; omega)
      dsimp only at this
      rwa [show p / 4096 + (j - p / 4096) = j by omega] at this
    rw [hI.bitmap, hbit, hI.bits j hj]
    show _ ↔ MarkedFree mmap j ∧ ¬ Covered (s.live.erase (p, n)) j
    rw [covered_erase hI.safe hm]
    rw [not_and_not_right]
    constructor
    · rintro (⟨hfree, hnc⟩ | hj')
      · exact ⟨hfree, fun hc => absurd hc hnc⟩
      · exact ⟨hmk hj', fun _ => hj'⟩
    · rintro ⟨hfree, hc⟩
      by_cases hcv : Covered s.live j
      · exact Or.inr (hc hcv)
      · exact Or.inl ⟨hfree, hcv⟩

theorem inv_step {o : PmmOp} {s' : PmmState} (hI : Inv mmap s) (hs : Step s o s') (hm : Meets s o) :
    Inv mmap s' := by
  obtain ⟨hv, rfl⟩ := hs
  cases o with
  | alloc n => exact inv_alloc hw hf hI hv.1 hm
  | free p n => exact inv_free hw hf hI hv

end Good

end FusionCore.Mm.PhysRun
