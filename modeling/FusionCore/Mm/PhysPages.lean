import FusionCore.Mm.PhysSpec
import FusionCore.Mm.Pages

/-! # The physical memory manager as a page source

The bitmap lies apart from the pages marked free, so writing in live allocations does not change it
(`inv_write`), and the calls for one page keep the memory of the others. With the bitmap not in page 0,
which `pmm_allocz` clears when it fails, `pmmSource` is lawful: for the pages handed out one by one
(`pmmSource_lawful`), and whatever else is allocated (`pmmSource_over`). -/

namespace FusionCore.Mm.PhysPages

open FusionCore.Lib.ByteMem FusionCore.Mm.Defs FusionCore.Mm.Bmap FusionCore.Mm.Phys
open FusionCore.Mm.PhysInit FusionCore.Mm.PhysRun FusionCore.Mm.PhysSpec FusionCore.Mm.Pages

variable {mmap : List MmapEntry} {s : PmmState} {m : Mem} {n : ℕ}

section Good
variable (hw : WellFormed mmap) (hf : Fits mmap)
include hw hf

theorem bitmap_pages : homeBase mmap % 4096 = 0 ∧ bitmapSize (hiPageTop mmap) % 4096 = 0 := by
  obtain ⟨pre, e, post, hh⟩ := exists_home hf.below hf.home
  have hlt := hiPageTop_lt hf.below (by norm_num) (by norm_num)
  refine ⟨?_, ?_⟩
  · rw [homeBase_eq hh]
    exact (hw.aligned e (by rw [hh.mmap_eq]; simp) hh.usable).1
  · rw [bitmapSize_eq (by omega)]
    exact Nat.mul_mod_left _ _

theorem not_mem_bitmap {i a : ℕ} (hi : MarkedFree mmap i) (ha : a ∈ page (4096 * i)) :
    a ∉ bitmapBytes mmap := by
  obtain ⟨h1, h2⟩ := bitmap_pages hw hf
  have h3 := hi.2.2.2
  simp only [bitmapBytes, page, Set.mem_Ico] at h3 ha ⊢
  omega

theorem not_mem_bitmap_of_live {a : ℕ} {b : ℕ × ℕ} (hs : Safe mmap s.live) (hb : b ∈ s.live)
    (ha : a ∈ Set.Ico b.1 (b.1 + b.2 * 4096)) : a ∉ bitmapBytes mmap := by
  have h1 := hs.aligned b hb
  obtain ⟨ha1, ha2⟩ := ha
  refine not_mem_bitmap hw hf (hs.marked b hb (a / 4096 - b.1 / 4096) (by omega)) ?_
  simp only [page, Set.mem_Ico]
  omega

omit hw in
/-- **Writing outside the bitmap keeps the invariant.** -/
theorem inv_write (hI : Inv mmap s) (hm : Set.EqOn m s.machine.mem (bitmapBytes mmap)) :
    Inv mmap ⟨{ s.machine with mem := m }, s.live⟩ := by
  obtain ⟨pre, e, post, hh⟩ := exists_home hf.below hf.home
  have hp := placed_bitmapOf hh
  have h31 := eight_bitmapSize_le hf.below
  refine ⟨hI.bitmap, hI.hi, hI.used, fun i hi => ?_, hI.safe, hI.pos⟩
  have hi8 : i < 8 * (bitmapOf mmap).size := lt_of_lt_of_le hi hf.covers
  have hi31 : i < 2 ^ 31 := lt_of_lt_of_le hi8 h31
  have hmem : homeBase mmap + i / 8 ∈ bitmapBytes mmap := by
    change i < 8 * bitmapSize (hiPageTop mmap) at hi8
    exact ⟨by omega, by omega⟩
  rw [← hI.bits i hi, bit_placed hp hi8 hi31, bit_placed hp hi8 hi31]
  show (m _).toNat.testBit (i % 8) = false ↔ _
  rw [hm hmem]

/-- **`pmm_allocz` as a first fit**: a range apart from everything live, zeroed, with the rest of memory
as it was but for the bitmap. -/
theorem pmmAllocz_firstFit (hI : Inv mmap s) (hn : 1 ≤ n) (hfit : FirstFit s.machine n)
    (h0 : (pmmAllocz s.machine n).1 ≠ 0) :
    Inv mmap ⟨(pmmAllocz s.machine n).2, ((pmmAllocz s.machine n).1, n) :: s.live⟩ ∧
    (∀ a ∈ Set.Ico (pmmAllocz s.machine n).1 ((pmmAllocz s.machine n).1 + n * 4096),
      (pmmAllocz s.machine n).2.mem a = 0) ∧
    ∀ a, a ∉ bitmapBytes mmap →
      a ∉ Set.Ico (pmmAllocz s.machine n).1 ((pmmAllocz s.machine n).1 + n * 4096) →
      (pmmAllocz s.machine n).2.mem a = s.machine.mem a := by
  have hI' := inv_alloc hw hf hI hn hfit
  obtain ⟨pre, e, post, hh⟩ := exists_home hf.below hf.home
  have hp := placed_bitmapOf hh
  have h31 := eight_bitmapSize_le hf.below
  have hcov : topPage mmap ≤ 8 * (bitmapOf mmap).size := hf.covers
  have htop : pageToBit s.machine.pmm.hiPageTop = topPage mmap := by rw [hI.hi]; rfl
  have ht := (initUsed_bounds hw hf).2.2
  rcases pmmAlloc_cases hw hf hI hn with ⟨i, hi0, hi, h1, h2, h3⟩ | ⟨-, h3⟩
  swap
  · exact absurd (show (pmmAllocz s.machine n).1 = 0 by simp [pmmAllocz, h3]) h0
  have hin : i + n ≤ topPage mmap := by
    have := (hfit i (by rw [htop]; exact hi) h1 h2 (n - 1) (by omega)).1
    rw [htop] at this
    omega
  have hlen : 4096 * n % 2 ^ 64 = n * 4096 := by omega
  have hlive : (exec s (.alloc n)).live = (4096 * i, n) :: s.live := by
    simp only [exec, h3]
    rw [if_neg (by omega)]
  have hmach : (exec s (.alloc n)).machine = (pmmAlloc s.machine n).2 := by simp only [exec]
  have heq : exec s (.alloc n) = ⟨(pmmAlloc s.machine n).2, (4096 * i, n) :: s.live⟩ := by
    rw [← hlive, ← hmach]
  rw [heq] at hI'
  have hr : pmmAllocz s.machine n = (4096 * i, { (pmmAlloc s.machine n).2 with
      mem := fill (pmmAlloc s.machine n).2.mem (4096 * i) (n * 4096) 0 }) := by
    simp only [pmmAllocz, h3, hlen]
  rw [hr]
  refine ⟨inv_write hf hI' fun a ha => fill_of_not_mem fun hc => ?_, fun a ha => fill_of_mem ha,
    fun a hb ha => ?_⟩
  · exact not_mem_bitmap_of_live hw hf (b := (4096 * i, n)) hI'.safe (by simp) hc ha
  · show fill (pmmAlloc s.machine n).2.mem (4096 * i) (n * 4096) 0 a = _
    rw [fill_of_not_mem ha, h3]
    exact setBits_of_not_mem hp hb (by omega) (by omega)

theorem pmmAllocz_found {i : ℕ} (hI : Inv mmap s) (hn : 1 ≤ n) (hi : i < topPage mmap)
    (hc : ScanClear s.machine n i) :
    ∃ j, 0 < j ∧ j ≤ i ∧ (pmmAllocz s.machine n).1 = 4096 * j ∧ ScanClear s.machine n j ∧
      ∀ i' < j, ¬ ScanClear s.machine n i' := by
  rcases pmmAlloc_cases hw hf hI hn with ⟨j, hj0, -, h1, h2, h3⟩ | ⟨h1, -⟩
  · refine ⟨j, hj0, ?_, by simp only [pmmAllocz, h3], h1, h2⟩
    by_contra hlt
    exact h2 i (by omega) hc
  · exact absurd hc (h1 i hi)

theorem pmmFree_frame {p a : ℕ} (hI : Inv mmap s) (hm : (p, n) ∈ s.live) (ha : a ∉ bitmapBytes mmap) :
    (pmmFree s.machine p n).mem a = s.machine.mem a := by
  obtain ⟨pre, e, post, hh⟩ := exists_home hf.below hf.home
  have hp := placed_bitmapOf hh
  have ht := (initUsed_bounds hw hf).2.2
  have hcov : topPage mmap ≤ 8 * (bitmapOf mmap).size := hf.covers
  have hpos : 1 ≤ n := hI.pos _ hm
  have hlt := (hI.safe.marked _ hm (n - 1) (by show n - 1 < n; omega)).2.1
  dsimp only at hlt
  show clearBits s.machine.pmm.bitmap (pageToBit p) n s.machine.mem a = _
  rw [hI.bitmap]
  exact clearBits_of_not_mem hp ha (by unfold pageToBit; omega) (by unfold pageToBit; omega)

/-! ### Releasing a part -/

omit hw hf in
theorem live_apart {a b : ℕ × ℕ} (hI : Inv mmap s) (ha : a ∈ s.live) (hb : b ∈ s.live) (hne : b ≠ a) :
    Apart a b := (hI.safe.erase ha).2 b ((List.mem_erase_of_ne hne).mpr hb)

omit hw hf in
theorem inv_split {p k : ℕ} (hI : Inv mmap s) (hm : (p, n) ∈ s.live) (h1 : 1 ≤ k) (h2 : k < n) :
    Inv mmap ⟨s.machine, (p, k) :: (p + k * 4096, n - k) :: s.live.erase (p, n)⟩ := by
  obtain ⟨hsafe, hap⟩ := hI.safe.erase hm
  have hal := hI.safe.aligned _ hm
  have hmk := hI.safe.marked _ hm
  dsimp only at hal hmk
  have hsum := livePages_erase hm
  refine ⟨hI.bitmap, hI.hi, ?_, fun i hi => ?_, ⟨?_, ?_, ?_⟩, ?_⟩
  · rw [hI.used, hsum]
    simp only [livePages, List.map_cons, List.sum_cons]
    omega
  · rw [hI.bits i hi]
    have hcov : Covered s.live i ↔
        Covered ((p, k) :: (p + k * 4096, n - k) :: s.live.erase (p, n)) i := by
      constructor
      · rintro ⟨b, hb, h3, h4⟩
        by_cases hbe : b = (p, n)
        · subst hbe
          dsimp only at h3 h4
          by_cases hik : i < p / 4096 + k
          · exact ⟨(p, k), by simp, h3, hik⟩
          · exact ⟨(p + k * 4096, n - k), by simp, by dsimp only; omega, by dsimp only; omega⟩
        · exact ⟨b, by simp [(List.mem_erase_of_ne hbe).mpr hb], h3, h4⟩
      · rintro ⟨b, hb, h3, h4⟩
        rcases List.mem_cons.mp hb with rfl | hb
        · exact ⟨(p, n), hm, h3, by dsimp only at h4 ⊢; omega⟩
        · rcases List.mem_cons.mp hb with rfl | hb
          · exact ⟨(p, n), hm, by dsimp only at h3 ⊢; omega, by dsimp only at h4 ⊢; omega⟩
          · exact ⟨b, List.mem_of_mem_erase hb, h3, h4⟩
    rw [hcov]
  · refine List.pairwise_cons.mpr ⟨fun b hb => ?_, List.pairwise_cons.mpr ⟨fun b hb => ?_, hsafe.apart⟩⟩
    · rcases List.mem_cons.mp hb with rfl | hb
      · simp [Apart]
      · rcases hap b hb with h | h
        · exact Or.inl (le_trans (Nat.add_le_add_left (Nat.mul_le_mul_right 4096 h2.le) p) h)
        · exact Or.inr h
    · rcases hap b hb with h | h
      · exact Or.inl (by dsimp only at h ⊢; omega)
      · exact Or.inr (by dsimp only at h ⊢; omega)
  · intro b hb
    rcases List.mem_cons.mp hb with rfl | hb
    · exact hal
    · rcases List.mem_cons.mp hb with rfl | hb
      · dsimp only
        omega
      · exact hsafe.aligned b hb
  · intro b hb
    rcases List.mem_cons.mp hb with rfl | hb
    · exact fun i hi => hmk i (by dsimp only at hi; omega)
    · rcases List.mem_cons.mp hb with rfl | hb
      · intro i hi
        dsimp only at hi ⊢
        rw [show (p + k * 4096) / 4096 + i = p / 4096 + (k + i) by omega]
        exact hmk (k + i) (by omega)
      · exact hsafe.marked b hb
  · intro b hb
    rcases List.mem_cons.mp hb with rfl | hb
    · exact h1
    · rcases List.mem_cons.mp hb with rfl | hb
      · dsimp only
        omega
      · exact hI.pos b (List.mem_of_mem_erase hb)

/-- **`pmm_free` with a count that is too small** frees the first pages; the other allocations stay. -/
theorem inv_free_part {p k : ℕ} (hI : Inv mmap s) (hm : (p, n) ∈ s.live) (hk : k ≤ n) :
    ∃ live, Inv mmap ⟨pmmFree s.machine p k, live⟩ ∧ (∀ b ∈ s.live, b ≠ (p, n) → b ∈ live) ∧
      ∀ a, a ∉ bitmapBytes mmap → (pmmFree s.machine p k).mem a = s.machine.mem a := by
  rcases Nat.eq_zero_or_pos k with rfl | hk1
  · -- nothing is freed
    have hused : pmmFree s.machine p 0 = s.machine := by
      have h1 := hI.used
      have h2 := (initUsed_bounds hw hf)
      have h3 := hI.safe.livePages_le
      have h4 : (s.machine.pmm.usedPageCnt + (2 ^ 64 - 0)) % 2 ^ 64 = s.machine.pmm.usedPageCnt := by
        omega
      unfold pmmFree
      rw [h4]
      rfl
    rw [hused]
    exact ⟨s.live, hI, fun b hb _ => hb, fun _ _ => rfl⟩
  · rcases Nat.lt_or_ge k n with hkn | hkn
    · have hI' := inv_split hI hm hk1 hkn
      have hI'' := inv_free hw hf hI' (List.mem_cons_self ..)
      simp only [exec, List.erase_cons_head] at hI''
      refine ⟨_, hI'', fun b hb hne => ?_, fun a ha => ?_⟩
      · exact List.mem_cons_of_mem _ ((List.mem_erase_of_ne hne).mpr hb)
      · have hfr := pmmFree_frame hw hf hI' (List.mem_cons_self ..) ha
        exact hfr
    · obtain rfl : k = n := by omega
      exact ⟨_, inv_free hw hf hI hm, fun b hb hne => (List.mem_erase_of_ne hne).mpr hb,
        fun a ha => pmmFree_frame hw hf hI hm ha⟩

/-! ### The contract -/

omit hw hf in
/-- The live allocations are the pages of `H`, one by one. -/
def Handed (mmap : List MmapEntry) (s : Machine Pmm) (H : Set ℕ) : Prop :=
  ∃ live, Inv mmap ⟨s, live⟩ ∧ ∀ b, b ∈ live ↔ b.2 = 1 ∧ b.1 ∈ H

omit hw hf in
theorem Handed.page_ok {s : Machine Pmm} {live : List (ℕ × ℕ)} {p : ℕ} (hI : Inv mmap ⟨s, live⟩)
    (hp : (p, 1) ∈ live) : p % 4096 = 0 ∧ MarkedFree mmap (p / 4096) ∧ 4096 * (p / 4096) = p := by
  have h1 := hI.safe.aligned _ hp
  have h2 := hI.safe.marked _ hp 0 Nat.zero_lt_one
  dsimp only at h1 h2
  exact ⟨h1, h2, by omega⟩

theorem firstFit_one_of_inv (hI : Inv mmap s) : FirstFit s.machine 1 := by
  have ht := (initUsed_bounds hw hf).2.2
  have htop : pageToBit s.machine.pmm.hiPageTop = topPage mmap := by rw [hI.hi]; rfl
  exact firstFit_one (by rw [htop]; omega)

omit hw hf in
theorem live_nodup (hI : Inv mmap s) : s.live.Nodup := by
  refine (List.Pairwise.and_mem.mp hI.safe.apart).imp ?_
  rintro a b ⟨ha, -, h⟩ rfl
  have := hI.pos a ha
  unfold Apart at h
  omega

omit hw hf in
/-- The pages marked free. -/
def arenaOf (mmap : List MmapEntry) : Set ℕ := {p | p % 4096 = 0 ∧ MarkedFree mmap (p / 4096)}

theorem not_mem_bitmap_of_arena {p a : ℕ} (hp : p ∈ arenaOf mmap) (ha : a ∈ page p) :
    a ∉ bitmapBytes mmap := by
  have hm : 4096 * (p / 4096) = p := by have := hp.1; omega
  exact not_mem_bitmap hw hf hp.2 (by rw [hm]; exact ha)

theorem allocz_fails_iff (hI : Inv mmap s) :
    ((pmmSource.allocz s.machine).1 = 0 ↔ freeSet s.machine = ∅) ∧
    ((pmmSource.allocz s.machine).1 = 0 → pmmSource.allocz s.machine =
      (0, { s.machine with mem := fill s.machine.mem 0 4096 0 })) := by
  show ((pmmAllocz s.machine 1).1 = 0 ↔ _) ∧ ((pmmAllocz s.machine 1).1 = 0 → pmmAllocz s.machine 1 = _)
  rcases pmmAlloc_one hw hf hI with ⟨i, hi0, hleast, hr⟩ | ⟨he, hr⟩
  · have h1 : (pmmAllocz s.machine 1).1 ≠ 0 := by
      simp only [pmmAllocz, hr]
      omega
    have hne : freeSet s.machine ≠ ∅ := fun he => by
      rw [he] at hleast
      exact absurd hleast.1 (Set.notMem_empty _)
    exact ⟨iff_of_false h1 hne, fun h => absurd h h1⟩
  · exact ⟨iff_of_true (by simp only [pmmAllocz, hr]) he, fun _ => by simp [pmmAllocz, hr]⟩

theorem allocz_used (hI : Inv mmap s) (h0 : (pmmSource.allocz s.machine).1 ≠ 0) :
    (pmmSource.allocz s.machine).2.pmm.usedPageCnt = s.machine.pmm.usedPageCnt + 1 := by
  rcases pmmAlloc_one hw hf hI with ⟨i, -, -, hr⟩ | ⟨he, -⟩
  · show (pmmAllocz s.machine 1).2.pmm.usedPageCnt = _
    simp only [pmmAllocz, hr]
  · exact absurd ((allocz_fails_iff hw hf hI).1.mpr he) h0

omit hw in
theorem freeSet_write (hI : Inv mmap s) (hm : Set.EqOn m s.machine.mem (bitmapBytes mmap)) :
    freeSet { s.machine with mem := m } = freeSet s.machine := by
  have hI' := inv_write hf hI hm
  ext i
  rw [free_iff_uncovered hI, free_iff_uncovered hI']

theorem not_mem_bitmap_of_zero (hb : homeBase mmap ≠ 0) {a : ℕ} (ha : a ∈ page 0) :
    a ∉ bitmapBytes mmap := by
  have h1 := (bitmap_pages hw hf).1
  simp only [bitmapBytes, page, Set.mem_Ico] at ha ⊢
  omega

omit hw hf in
/-- The live allocations are `base` and, one by one, the pages of `H`. -/
def Over (mmap : List MmapEntry) (base : List (ℕ × ℕ)) (s : Machine Pmm) (H : Set ℕ) : Prop :=
  ∃ live, Inv mmap ⟨s, live⟩ ∧ (∀ b, b ∈ live ↔ b ∈ base ∨ b.2 = 1 ∧ b.1 ∈ H) ∧ ∀ p ∈ H, (p, 1) ∉ base

omit hw hf in
theorem over_nil {s : Machine Pmm} {H : Set ℕ} : Over mmap [] s H ↔ Handed mmap s H := by
  unfold Over Handed
  simp

omit hw in
theorem Over.write {base : List (ℕ × ℕ)} {s : Machine Pmm} {H : Set ℕ} (hG : Over mmap base s H)
    (hm : Set.EqOn m s.mem (bitmapBytes mmap)) : Over mmap base { s with mem := m } H := by
  obtain ⟨live, hI, hH, hd⟩ := hG
  exact ⟨live, inv_write hf hI hm, hH, hd⟩

omit hw hf in
/-- The bitmap and the counters are the same. -/
def SamePmm (mmap : List MmapEntry) (s s' : Machine Pmm) : Prop :=
  s'.pmm = s.pmm ∧ Set.EqOn s'.mem s.mem (bitmapBytes mmap)

section SamePmm
variable {s₁ s₂ s₃ : Machine Pmm} {base : List (ℕ × ℕ)} {H : Set ℕ}

omit hw hf in
theorem SamePmm.trans (h : SamePmm mmap s₁ s₂) (h' : SamePmm mmap s₂ s₃) : SamePmm mmap s₁ s₃ :=
  ⟨h'.1.trans h.1, h'.2.trans h.2⟩

omit hw hf in
theorem SamePmm.eq (h : SamePmm mmap s₁ s₂) : s₂ = { s₁ with mem := s₂.mem } := by
  rw [← h.1]

omit hw in
theorem SamePmm.over (h : SamePmm mmap s₁ s₂) (hG : Over mmap base s₁ H) : Over mmap base s₂ H := by
  rw [h.eq]
  exact hG.write hf h.2

omit hw in
theorem SamePmm.free (h : SamePmm mmap s₁ s₂) (hG : Over mmap base s₁ H) : freeSet s₂ = freeSet s₁ := by
  obtain ⟨live, hI, -⟩ := hG
  rw [h.eq]
  exact freeSet_write hf hI h.2

end SamePmm

theorem Over.allocz_full {base : List (ℕ × ℕ)} {s : Machine Pmm} {H : Set ℕ} (hG : Over mmap base s H)
    (hfull : freeSet s = ∅) : pmmSource.allocz s = (0, { s with mem := fill s.mem 0 4096 0 }) := by
  obtain ⟨live, hI, -⟩ := hG
  obtain ⟨h1, h2⟩ := allocz_fails_iff hw hf hI
  exact h2 (h1.mpr hfull)

theorem Over.fails_iff {base : List (ℕ × ℕ)} {s : Machine Pmm} {H : Set ℕ} (hG : Over mmap base s H) :
    (pmmSource.allocz s).1 = 0 ↔ freeSet s = ∅ := by
  obtain ⟨live, hI, -⟩ := hG
  exact (allocz_fails_iff hw hf hI).1

omit hw hf in
theorem Over.free_eq {base : List (ℕ × ℕ)} {s t : Machine Pmm} {H : Set ℕ} (hG : Over mmap base s H)
    (hT : Over mmap base t H) : freeSet t = freeSet s := by
  obtain ⟨live, hI, hlive, -⟩ := hG
  obtain ⟨live', hI', hlive', -⟩ := hT
  have hcov : ∀ i, Covered live' i ↔ Covered live i := fun i =>
    exists_congr fun b => and_congr_left fun _ => (hlive' b).trans (hlive b).symm
  ext i
  rw [free_iff_uncovered hI, free_iff_uncovered hI', hcov]

omit hw hf in
theorem covered_append {xs ys : List (ℕ × ℕ)} {i : ℕ} :
    Covered (xs ++ ys) i ↔ Covered xs i ∨ Covered ys i := by
  unfold Covered
  simp only [List.mem_append, or_and_right, exists_or]

omit hw hf in
theorem covered_singles {ps : List ℕ} (hal : ∀ p ∈ ps, p % 4096 = 0) {i : ℕ} :
    Covered (ps.map fun p => (p, 1)) i ↔ 4096 * i ∈ ps := by
  constructor
  · rintro ⟨b, hb, h1, h2⟩
    obtain ⟨p, hp, rfl⟩ := List.mem_map.mp hb
    have h3 := hal p hp
    dsimp only at h1 h2
    rwa [show 4096 * i = p by omega]
  · intro hp
    exact ⟨_, List.mem_map_of_mem hp, by dsimp only; omega, by dsimp only; omega⟩

omit hw hf in
theorem not_covered_both {xs ys : List (ℕ × ℕ)} {i : ℕ} (hI : Inv mmap s) (hperm : s.live.Perm (xs ++ ys))
    (hx : Covered xs i) : ¬ Covered ys i := by
  obtain ⟨a, ha, h1, h2⟩ := hx
  rintro ⟨b, hb, h3, h4⟩
  have hap := (List.pairwise_append.mp ((hperm.pairwise_iff fun h =>
    Apart.symm h).mp hI.safe.apart)).2.2 a ha b hb
  have h5 := hI.safe.aligned a (hperm.mem_iff.mpr (List.mem_append_left _ ha))
  have h6 := hI.safe.aligned b (hperm.mem_iff.mpr (List.mem_append_right _ hb))
  unfold Apart at hap
  omega

omit hw hf in
theorem perm_given_back {base live live' : List (ℕ × ℕ)} {H : Set ℕ} {ps : List ℕ}
    (hlive : ∀ b, b ∈ live ↔ b ∈ base ∨ b.2 = 1 ∧ b.1 ∈ H)
    (hlive' : ∀ b, b ∈ live' ↔ b ∈ base ∨ b.2 = 1 ∧ b.1 ∈ H \ {p | p ∈ ps})
    (hbase : ∀ p ∈ H, (p, 1) ∉ base) (hps : ∀ p ∈ ps, p ∈ H) (hnd : ps.Nodup) (hn : live.Nodup)
    (hn' : live'.Nodup) : live.Perm (live' ++ ps.map fun p => (p, 1)) := by
  refine (List.perm_ext_iff_of_nodup hn ?_).mpr fun b => ?_
  · refine List.nodup_append.mpr ⟨hn', hnd.map fun p q h => (Prod.mk.inj h).1, ?_⟩
    rintro a ha b hb rfl
    obtain ⟨p, hp, rfl⟩ := List.mem_map.mp hb
    rcases (hlive' _).mp ha with ha | ⟨-, -, ha⟩
    · exact hbase p (hps p hp) ha
    · exact ha hp
  · rw [List.mem_append, hlive, hlive', List.mem_map]
    constructor
    · rintro (hb | ⟨h1, h2⟩)
      · exact Or.inl (Or.inl hb)
      · by_cases hp : b.1 ∈ ps
        · exact Or.inr ⟨b.1, hp, Prod.ext rfl h1.symm⟩
        · exact Or.inl (Or.inr ⟨h1, h2, hp⟩)
    · rintro ((hb | ⟨h1, h2, -⟩) | ⟨p, hp, rfl⟩)
      · exact Or.inl hb
      · exact Or.inr ⟨h1, h2⟩
      · exact Or.inr ⟨rfl, hps p hp⟩

omit hw hf in
/-- **Pages given back**: they become free, and no others. -/
theorem Over.given_back {base : List (ℕ × ℕ)} {s t : Machine Pmm} {H : Set ℕ} {ps : List ℕ}
    (hG : Over mmap base s H) (hT : Over mmap base t (H \ {p | p ∈ ps})) (hps : ∀ p ∈ ps, p ∈ H)
    (hnd : ps.Nodup) :
    (∀ i, i ∈ freeSet t ↔ i ∈ freeSet s ∨ 4096 * i ∈ ps) ∧ (∀ p ∈ ps, p / 4096 ∉ freeSet s) ∧
      t.pmm.usedPageCnt + ps.length = s.pmm.usedPageCnt := by
  obtain ⟨live, hI, hlive, hbase⟩ := hG
  obtain ⟨live', hI', hlive', -⟩ := hT
  have hperm := perm_given_back hlive hlive' hbase hps hnd (live_nodup hI) (live_nodup hI')
  have hmem : ∀ p ∈ ps, (p, 1) ∈ live := fun p hp => (hlive _).mpr (Or.inr ⟨rfl, hps p hp⟩)
  have hal : ∀ p ∈ ps, p % 4096 = 0 := fun p hp => hI.safe.aligned _ (hmem p hp)
  have hcov : ∀ i, Covered live i ↔ Covered live' i ∨ 4096 * i ∈ ps := fun i => by
    rw [← covered_singles hal, ← covered_append]
    exact exists_congr fun b => and_congr_left fun _ => hperm.mem_iff
  refine ⟨fun i => ?_, fun p hp hfree => ?_, ?_⟩
  · rw [free_iff_uncovered hI, free_iff_uncovered hI', hcov]
    constructor
    · rintro ⟨hm, hn⟩
      by_cases hp : 4096 * i ∈ ps
      · exact Or.inr hp
      · exact Or.inl ⟨hm, not_or.mpr ⟨hn, hp⟩⟩
    · rintro (⟨hm, hn⟩ | hp)
      · exact ⟨hm, fun h => hn (Or.inl h)⟩
      · have hm := hI.safe.marked _ (hmem _ hp) 0 Nat.zero_lt_one
        rw [show (4096 * i, 1).1 / 4096 + 0 = i by dsimp only; omega] at hm
        exact ⟨hm, fun hc => not_covered_both hI hperm hc ((covered_singles hal).mpr hp)⟩
  · have h4 := hal p hp
    exact ((free_iff_uncovered hI).mp hfree).2
      ((hcov _).mpr (Or.inr (by rwa [show 4096 * (p / 4096) = p by omega])))
  · have hsum : livePages live = livePages live' + ps.length := by
      unfold livePages
      rw [(hperm.map Prod.snd).sum_eq, List.map_append, List.sum_append, List.map_map]
      simp [Function.comp_def]
    have h1 := hI.used
    have h2 := hI'.used
    dsimp only at h1 h2
    omega

theorem Over.used {base : List (ℕ × ℕ)} {s : Machine Pmm} {H : Set ℕ} (hG : Over mmap base s H)
    (h0 : (pmmSource.allocz s).1 ≠ 0) :
    (pmmSource.allocz s).2.pmm.usedPageCnt = s.pmm.usedPageCnt + 1 := by
  obtain ⟨live, hI, -⟩ := hG
  exact allocz_used hw hf hI h0

theorem pmmSource_releases (base : List (ℕ × ℕ)) :
    Releases pmmSource (arenaOf mmap) (Over mmap base) where
  pages := by
    rintro p ⟨h1, h2, h3, -⟩
    have h4 := (initUsed_bounds hw hf).2.2
    exact ⟨h1, by omega, by omega⟩
  handed := by
    rintro s H ⟨live, hI, hH, -⟩ p hp
    obtain ⟨h1, h2, -⟩ := Handed.page_ok hI ((hH (p, 1)).mpr (Or.inr ⟨rfl, hp⟩))
    exact ⟨h1, h2⟩
  free := by
    rintro s H p q ⟨live, hI, hH, hd⟩ hp hq
    have hpl : (p, 1) ∈ live := (hH (p, 1)).mpr (Or.inr ⟨rfl, hp⟩)
    have hpq : pageToBit q = pageToBit p := by
      have h1 := (Handed.page_ok hI hpl).1
      obtain ⟨hq1, hq2⟩ := hq
      unfold pageToBit
      omega
    have heq : pmmFree s q 1 = pmmFree s p 1 := by unfold pmmFree; rw [hpq]
    have hI' : Inv mmap ⟨pmmFree s p 1, live.erase (p, 1)⟩ := inv_free hw hf hI hpl
    show SamePages (arenaOf mmap) s.mem (pmmFree s q 1).mem ∧ Over mmap base (pmmFree s q 1) (H \ {p})
    rw [heq]
    refine ⟨fun r hr a ha => ?_, _, hI', fun b => ?_, fun r hr => hd r hr.1⟩
    · exact pmmFree_frame hw hf hI hpl (not_mem_bitmap_of_arena hw hf hr ha)
    · rw [(live_nodup hI).mem_erase_iff, hH, Set.mem_sdiff, Set.mem_singleton_iff, ne_eq, Prod.ext_iff]
      constructor
      · rintro ⟨h1, h | ⟨h2, h3⟩⟩
        · exact Or.inl h
        · exact Or.inr ⟨h2, h3, fun h4 => h1 ⟨h4, h2⟩⟩
      · rintro (h | ⟨h1, h2, h3⟩)
        · exact ⟨fun h4 => hd p hp (Prod.ext h4.1.symm h4.2.symm ▸ h), Or.inl h⟩
        · exact ⟨fun h4 => h3 h4.1, Or.inr ⟨h1, h2⟩⟩
  write := by
    rintro s H m hG hm
    exact hG.write hf fun a ha => hm a fun p hp hap => not_mem_bitmap_of_arena hw hf hp hap ha

/-- **The physical memory manager keeps the contract**, whatever else is allocated. -/
theorem pmmSource_over (hb : homeBase mmap ≠ 0) (base : List (ℕ × ℕ)) :
    Lawful pmmSource (arenaOf mmap) (Over mmap base) where
  pages := (pmmSource_releases hw hf base).pages
  handed := (pmmSource_releases hw hf base).handed
  alloc := by
    rintro s H ⟨live, hI, hH, hd⟩ h0
    have hH' : ∀ p ∈ H, (p, 1) ∈ live := fun p hp => (hH (p, 1)).mpr (Or.inr ⟨rfl, hp⟩)
    obtain ⟨hI', hz, hfr⟩ :=
      pmmAllocz_firstFit hw hf hI le_rfl (firstFit_one_of_inv hw hf hI) h0
    have hap := (List.pairwise_cons.mp hI'.safe.apart).1
    have hnew : ((pmmAllocz s 1).1, 1) ∉ live := fun hmem => by
      have := hap _ hmem
      unfold Apart at this
      dsimp only at this
      omega
    refine ⟨fun hmem => hnew (hH' _ hmem), hz, fun p hp a ha => ?_, _, hI', fun b => ?_, fun p hp => ?_⟩
    · obtain ⟨h1, h2, h3⟩ := Handed.page_ok hI (hH' p hp)
      refine hfr a (not_mem_bitmap hw hf h2 (by rw [h3]; exact ha)) fun hc => ?_
      have := hap _ (hH' p hp)
      unfold Apart at this
      simp only [page, Set.mem_Ico] at ha hc this
      omega
    · rw [List.mem_cons, hH, Set.mem_insert_iff, Prod.ext_iff]
      constructor
      · rintro (⟨h1, h2⟩ | h | ⟨h1, h2⟩)
        · exact Or.inr ⟨h2, Or.inl h1⟩
        · exact Or.inl h
        · exact Or.inr ⟨h1, Or.inr h2⟩
      · rintro (h | ⟨h1, h2 | h2⟩)
        · exact Or.inr (Or.inl h)
        · exact Or.inl ⟨h2, h1⟩
        · exact Or.inr (Or.inr ⟨h1, h2⟩)
    · rcases Set.mem_insert_iff.mp hp with rfl | hp
      · exact fun hbase => hnew ((hH _).mpr (Or.inl hbase))
      · exact hd p hp
  exhausted := by
    rintro s H ⟨live, hI, hH, hd⟩ h0
    -- the memset clears page 0, which is no page of `H` and not the bitmap's
    have hr : pmmSource.allocz s = (0, { s with mem := fill s.mem 0 4096 0 }) :=
      (allocz_fails_iff hw hf hI).2 h0
    have hz : ∀ a, a ∉ page 0 → fill s.mem 0 4096 0 a = s.mem a := fun a ha => fill_of_not_mem ha
    rw [hr]
    refine ⟨fun p hp a ha => hz a fun hc => ?_, live, inv_write hf hI fun a ha =>
      hz a fun hc => ?_, hH, hd⟩
    · obtain ⟨h1, h2, h3⟩ := Handed.page_ok hI ((hH (p, 1)).mpr (Or.inr ⟨rfl, hp⟩))
      have h4 := h2.1
      simp only [page, Set.mem_Ico] at ha hc
      omega
    · exact not_mem_bitmap_of_zero hw hf hb hc ha
  free := (pmmSource_releases hw hf base).free
  write := (pmmSource_releases hw hf base).write

/-- **The physical memory manager keeps the contract.** -/
theorem pmmSource_lawful (hb : homeBase mmap ≠ 0) :
    Lawful pmmSource (arenaOf mmap) (Handed mmap) := by
  have heq : Over mmap [] = Handed mmap := by
    funext s H
    exact propext over_nil
  exact heq ▸ pmmSource_over hw hf hb []

theorem handed_serves {s : Machine Pmm} {H : Set ℕ} {i : ℕ} (hG : Handed mmap s H)
    (hi : MarkedFree mmap i) (hn : 4096 * i ∉ H) : (pmmSource.allocz s).1 ≠ 0 := by
  obtain ⟨live, hI, hH⟩ := hG
  have hcov : ¬ Covered live i := by
    rintro ⟨b, hb, h1, h2⟩
    obtain ⟨h3, h4⟩ := (hH b).mp hb
    have h5 := hI.safe.aligned b hb
    exact hn (by rwa [show 4096 * i = b.1 by omega])
  intro h0
  have hmem : i ∈ freeSet s := (free_iff_uncovered hI).mpr ⟨hi, hcov⟩
  have he : freeSet s = ∅ := (allocz_fails_iff hw hf hI).1.mp h0
  rw [he] at hmem
  exact absurd hmem (Set.notMem_empty _)

theorem handed_fails_iff {s : Machine Pmm} {H : Set ℕ} (hG : Handed mmap s H) :
    (pmmSource.allocz s).1 = 0 ↔ ∀ i, MarkedFree mmap i → 4096 * i ∈ H := by
  constructor
  · intro h0 i hi
    by_contra hn
    exact handed_serves hw hf hG hi hn h0
  · intro hall
    obtain ⟨live, hI, hH⟩ := hG
    refine (allocz_fails_iff hw hf hI).1.mpr (Set.eq_empty_iff_forall_notMem.mpr fun i hi => ?_)
    obtain ⟨hmark, hcov⟩ := (free_iff_uncovered hI).mp hi
    exact hcov ⟨(4096 * i, 1), (hH _).mpr ⟨rfl, hall i hmark⟩, by dsimp only; omega, by dsimp only; omega⟩

theorem serves_of_marked {s : Machine Pmm} {F : Finset ℕ} {lo : ℕ} (hG : Handed mmap s F)
    (hmark : ∀ i, lo ≤ i → i < lo + n → MarkedFree mmap i) (hc : F.card < n) :
    (pmmSource.allocz s).1 ≠ 0 := by
  have hcard : F.card < ((Finset.Ico lo (lo + n)).image (4096 * ·)).card := by
    rw [Finset.card_image_of_injective _ fun a b h => by
      simpa using h, Nat.card_Ico, Nat.add_sub_cancel_left]
    exact hc
  obtain ⟨q, hq, hn⟩ := Finset.exists_mem_notMem_of_card_lt_card hcard
  obtain ⟨i, hi, rfl⟩ := Finset.mem_image.mp hq
  rw [Finset.mem_Ico] at hi
  exact handed_serves hw hf hG (hmark i hi.1 hi.2) hn

end Good

/-! ### The small map -/

/-- The small map after `pmm_init`. -/
def booted : Machine Pmm := (start smallMap fun _ => 0).machine

theorem smallMap_lawful : Lawful pmmSource (arenaOf smallMap) (Handed smallMap) :=
  pmmSource_lawful smallMap_wellFormed smallMap_fits (by decide)

theorem handed_booted : Handed smallMap booted ∅ :=
  ⟨[], inv_start smallMap_wellFormed smallMap_fits _, by simp⟩

theorem smallMap_marked {i : ℕ} (h2 : 2 ≤ i) (h32 : i ≤ 32) : MarkedFree smallMap i := by
  have htop : topPage smallMap = 33 := by decide
  have hbm : bitmapBytes smallMap = Set.Ico 4096 8192 := by
    unfold bitmapBytes
    rw [show homeBase smallMap = 4096 by decide, show bitmapSize (hiPageTop smallMap) = 4096 by decide]
  refine ⟨by omega, by omega, ⟨⟨4096, 32 * 4096, .usable⟩, by simp [smallMap], rfl, ?_⟩, ?_⟩
  · simp only [range, Set.mem_Ico]
    omega
  · rw [hbm, Set.mem_Ico]
    omega

theorem smallMap_serves {s : Machine Pmm} {F : Finset ℕ} (hG : Handed smallMap s F) (hc : F.card < 31) :
    (pmmSource.allocz s).1 ≠ 0 :=
  serves_of_marked smallMap_wellFormed smallMap_fits hG
    (fun _ h1 h2 => smallMap_marked h1 (Nat.le_of_lt_succ h2)) hc

/-! ### Few pages -/

/-- A page for the bitmap, `n` free pages behind it, and the kernel at 1 MiB. -/
def fewPages (n : ℕ) : List MmapEntry :=
  [⟨4096, (n + 1) * 4096, .usable⟩, ⟨0x100000, 4096, .kernelAndModules⟩]

section Few
variable {n : ℕ} (hn : n ≤ 200)
include hn

theorem fewPages_top : hiPageTop (fewPages n) = 0x101000 := by
  have h1 : (4096 + (n + 1) * 4096) % 2 ^ 64 = 4096 + (n + 1) * 4096 := by omega
  simp only [hiPageTop, fewPages, List.foldl, MmapType.counted, if_true, h1]
  rw [if_pos (show 4096 + (n + 1) * 4096 > 0 by omega), if_pos (by omega)]
  norm_num

theorem fewPages_bitmap : bitmapBytes (fewPages n) = Set.Ico 4096 8192 ∧
    homeBase (fewPages n) = 4096 := by
  have hsize : bitmapSize (hiPageTop (fewPages n)) = 4096 := by
    rw [fewPages_top hn]
    decide
  have hbase : homeBase (fewPages n) = 4096 := by
    have hle : 4096 ≤ (n + 1) * 4096 := by omega
    unfold homeBase placed
    rw [hsize, fewPages, placeBitmap, if_pos ⟨rfl, hle⟩]
    dsimp only
    decide
  exact ⟨by rw [bitmapBytes, hbase, hsize], hbase⟩

omit hn in
theorem fewPages_wellFormed : WellFormed (fewPages n) where
  aligned := by
    intro e he hu
    rcases List.mem_cons.mp he with rfl | he
    · exact ⟨by norm_num, by dsimp only; omega⟩
    · rw [List.mem_singleton.mp he] at hu
      cases hu
  disjoint := by simp [fewPages]

theorem fewPages_fits : Fits (fewPages n) where
  below := by
    intro e he _
    rcases List.mem_cons.mp he with rfl | he
    · dsimp only
      omega
    · rw [List.mem_singleton.mp he]
      norm_num
  covers := by
    unfold topPage
    rw [fewPages_top hn]
    decide
  home := by
    refine ⟨_, List.mem_cons_self .., rfl, ?_⟩
    rw [fewPages_top hn, show bitmapSize 0x101000 = 4096 by decide]
    dsimp only
    omega

theorem fewPages_marked_iff {i : ℕ} : MarkedFree (fewPages n) i ↔ 2 ≤ i ∧ i ≤ n + 1 := by
  have htop : topPage (fewPages n) = 257 := by
    unfold topPage
    rw [fewPages_top hn]
    decide
  unfold MarkedFree
  rw [htop, (fewPages_bitmap hn).1, Set.mem_Ico]
  constructor
  · rintro ⟨h1, -, ⟨e, he, hu, hr⟩, h2⟩
    rcases List.mem_cons.mp he with rfl | he
    · simp only [range, Set.mem_Ico] at hr
      omega
    · rw [List.mem_singleton.mp he] at hu
      cases hu
  · rintro ⟨h1, h2⟩
    refine ⟨by omega, by omega, ⟨_, List.mem_cons_self .., rfl, ?_⟩, by omega⟩
    simp only [range, Set.mem_Ico]
    omega

theorem fewPages_lawful : Lawful pmmSource (arenaOf (fewPages n)) (Handed (fewPages n)) :=
  pmmSource_lawful (fewPages_wellFormed) (fewPages_fits hn) (by rw [(fewPages_bitmap hn).2]; norm_num)

theorem handed_few (m : Mem) : Handed (fewPages n) (start (fewPages n) m).machine ∅ :=
  ⟨[], inv_start (fewPages_wellFormed) (fewPages_fits hn) m, by simp⟩

theorem fewPages_fails_iff {s : Machine Pmm} {H : Set ℕ} (hG : Handed (fewPages n) s H) :
    (pmmSource.allocz s).1 = 0 ↔ ∀ i, 2 ≤ i → i ≤ n + 1 → 4096 * i ∈ H := by
  rw [handed_fails_iff (fewPages_wellFormed) (fewPages_fits hn) hG]
  exact ⟨fun h i h1 h2 => h i ((fewPages_marked_iff hn).mpr ⟨h1, h2⟩),
    fun h i hi => h i ((fewPages_marked_iff hn).mp hi).1 ((fewPages_marked_iff hn).mp hi).2⟩

end Few

end FusionCore.Mm.PhysPages
