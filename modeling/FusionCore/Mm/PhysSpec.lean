import FusionCore.Mm.PhysRun

/-! # What holds of every run of the physical memory manager

* `safe_of_firstFit`: as long as every allocation is a first fit, the live allocations are apart and lie
  in pages `pmm_init` marked free; the first allocation that is not ends this.
* `single_page_refines_set`: with one page at a time the allocator is the set of its clear bits.
* `used_eq_setBitCount_iff`: the counter counts the set bits on no map with a page.
* `allocz_atomic_iff`: a `pmm_allocz` that fails clears the memory from address 0 on. -/

namespace FusionCore.Mm.PhysSpec

open FusionCore.Lib.ByteMem FusionCore.Lib.Runs
open FusionCore.Mm.Defs FusionCore.Mm.Bmap FusionCore.Mm.Phys FusionCore.Mm.PhysInit
open FusionCore.Mm.PhysRun

/-- A small map: 33 pages, of which the first is not reported and the second houses the bitmap. -/
def smallMap : List MmapEntry := [⟨4096, 32 * 4096, .usable⟩]

theorem smallMap_wellFormed : WellFormed smallMap where
  aligned := by simp [smallMap]
  disjoint := List.pairwise_singleton _ _

theorem smallMap_fits : Fits smallMap where
  below := by
    intro e he _
    rw [List.mem_singleton.mp he]
    norm_num
  covers := by decide
  home := ⟨_, List.mem_singleton_self _, rfl, by decide⟩

/-! ### Several pages at a time -/

section Runs
variable {mmap : List MmapEntry} {m : Mem} {ops : List PmmOp} {s : PmmState}

theorem inv_of_run (hw : WellFormed mmap) (hf : Fits mmap)
    (hr : Run (fun s o s' => Step s o s' ∧ Meets s o) (start mmap m) ops s) : Inv mmap s :=
  hr.invariant (inv_start hw hf m) fun _ _ _ hI hs => inv_step hw hf hI hs.1 hs.2

/-- An allocation that is not a first fit takes a page that is live, not marked free, or above the
top. -/
theorem not_safe_of_not_firstFit (hw : WellFormed mmap) (hf : Fits mmap) (hI : Inv mmap s) {n : ℕ}
    (hn : 1 ≤ n) (h : ¬ FirstFit s.machine n) : ¬ Safe mmap (exec s (.alloc n)).live := by
  have htop : pageToBit s.machine.pmm.hiPageTop = topPage mmap := by rw [hI.hi]; rfl
  unfold FirstFit at h
  push Not at h
  obtain ⟨i, hi, h1, h2, k, hk, h3⟩ := h
  rw [htop] at hi h3
  rw [hI.bitmap] at h3
  rcases pmmAlloc_cases hw hf hI hn with ⟨i', hi0, hi', h1', h2', h4⟩ | ⟨h4, -⟩
  swap
  · exact absurd h1 (h4 i hi)
  -- both are the first index that passes the test
  have he : i' = i := by
    rcases Nat.lt_trichotomy i' i with hlt | heq | hlt
    · exact absurd h1' (h2 i' hlt)
    · exact heq
    · exact absurd h1 (h2' i hlt)
  subst he
  have hlive : (exec s (.alloc n)).live = (4096 * i', n) :: s.live := by
    simp only [exec, h4]
    rw [if_neg (by omega)]
  rw [hlive]
  intro hs
  have hmk : MarkedFree mmap (i' + k) := by
    have := hs.marked _ (List.mem_cons_self ..) k hk
    rwa [show (4096 * i', n).1 / 4096 + k = i' + k by simp] at this
  refine h3 hmk.2.1 ((hI.bits _ hmk.2.1).mpr ⟨hmk, ?_⟩)
  rintro ⟨a, ha, h5, h6⟩
  have h7 := (List.pairwise_cons.mp hs.apart).1 a ha
  have h8 := hs.aligned a (by simp [ha])
  unfold Apart at h7
  dsimp only at h7
  omega

/-- **Disjoint live allocations.** In every run whose allocations are first fits the live allocations are
pairwise apart and lie in pages marked free; and from a state of such a run an allocation keeps this
exactly if it is a first fit. -/
theorem safe_of_firstFit (hw : WellFormed mmap) (hf : Fits mmap)
    (hr : Run (fun s o s' => Step s o s' ∧ Meets s o) (start mmap m) ops s) :
    Safe mmap s.live ∧ ∀ n, 1 ≤ n → n < 2 ^ 64 →
      (Safe mmap (exec s (.alloc n)).live ↔ FirstFit s.machine n) := by
  have hI := inv_of_run hw hf hr
  refine ⟨hI.safe, fun n hn _ => ⟨fun hs => ?_, fun hfit => (inv_alloc hw hf hI hn hfit).safe⟩⟩
  by_contra h
  exact not_safe_of_not_firstFit hw hf hI hn h hs

end Runs

instance (s : Machine Pmm) (n i : ℕ) : Decidable (ScanClear s n i) := by
  unfold ScanClear; infer_instance

instance (s : Machine Pmm) (n : ℕ) : Decidable (FirstFit s n) := by
  unfold FirstFit; infer_instance

theorem safe_of_firstFit_smallMap :
    Safe smallMap (exec (start smallMap fun _ => 0) (.alloc 3)).live := by
  have hfit : FirstFit (start smallMap fun _ => 0).machine 3 := by decide +kernel
  have hstep : Step (start smallMap fun _ => 0) (.alloc 3)
      (exec (start smallMap fun _ => 0) (.alloc 3)) := ⟨⟨by decide, by decide⟩, rfl⟩
  exact (safe_of_firstFit smallMap_wellFormed smallMap_fits (.cons ⟨hstep, hfit⟩ .nil)).1

/-- After two single pages are allocated and the first is freed, an allocation of two pages gets the
freed page and the live one behind it. -/
theorem pmmAlloc_two_overlaps :
    ∃ s, Run Step (start smallMap fun _ => 0) [.alloc 1, .alloc 1, .free 8192 1, .alloc 2] s ∧
      ¬ Safe smallMap s.live := by
  set s₁ := exec (start smallMap fun _ => 0) (.alloc 1) with h₁
  set s₂ := exec s₁ (.alloc 1) with h₂
  set s₃ := exec s₂ (.free 8192 1) with h₃
  set s₄ := exec s₃ (.alloc 2) with h₄
  have hl₂ : s₂.live = [(12288, 1), (8192, 1)] := by rw [h₂, h₁]; decide +kernel
  have hl₄ : s₄.live = [(8192, 2), (12288, 1)] := by rw [h₄, h₃, h₂, h₁]; decide +kernel
  have hv : ∀ {s n}, 1 ≤ n → n < 2 ^ 64 → Step s (.alloc n) (exec s (.alloc n)) :=
    fun h1 h2 => ⟨⟨h1, h2⟩, rfl⟩
  refine ⟨s₄, ?_, fun hs => ?_⟩
  · refine .cons (hv (by decide) (by decide)) (.cons (hv (by decide) (by decide)) ?_)
    refine .cons ⟨?_, rfl⟩ (.cons (hv (by decide) (by decide)) .nil)
    show (8192, 1) ∈ s₂.live
    rw [hl₂]; simp
  · have := hs.apart
    rw [hl₄] at this
    simp [Apart] at this

/-! ### One page at a time -/

/-- **The abstract allocator**: the set of the clear bits below the top. -/
def freeSet (s : Machine Pmm) : Set ℕ :=
  {i | i < pageToBit s.pmm.hiPageTop ∧ bit s.mem s.pmm.bitmap i = false}

/-- A call for one page. -/
def Single : PmmOp → Prop
  | .alloc n => n = 1
  | .free _ n => n = 1

theorem scanClear_one {s : Machine Pmm} {i : ℕ} (hi : i < 2 ^ 64) :
    ScanClear s 1 i ↔ bit s.mem s.pmm.bitmap i = false := by
  unfold ScanClear
  have h0 : (i + pageToBit 0) % 2 ^ 64 = i := by unfold pageToBit; omega
  constructor
  · intro h; rw [← h0]; exact h 0 Nat.zero_lt_one
  · intro h j hj
    rw [show j = 0 by omega, h0]
    exact h

theorem firstFit_one {s : Machine Pmm} (ht : pageToBit s.pmm.hiPageTop < 2 ^ 64) :
    FirstFit s 1 := by
  intro i hi h1 _ k hk
  rw [show i + k = i by omega]
  exact ⟨hi, (scanClear_one (by omega)).mp h1⟩

section Single
variable {mmap : List MmapEntry} {m : Mem} {ops : List PmmOp} {s : PmmState}
  (hw : WellFormed mmap) (hf : Fits mmap)
include hw hf

theorem inv_of_single_run
    (hr : Run (fun s o s' => Step s o s' ∧ Single o) (start mmap m) ops s) :
    Inv mmap s ∧ ∀ a ∈ s.live, a.2 = 1 := by
  have ht := (initUsed_bounds hw hf).2.2
  refine hr.invariant (I := fun s => Inv mmap s ∧ ∀ a ∈ s.live, a.2 = 1)
    ⟨inv_start hw hf m, by simp [start]⟩ ?_
  rintro s₁ o s₂ ⟨hI, h1⟩ ⟨hs, ho⟩
  have htop : pageToBit s₁.machine.pmm.hiPageTop = topPage mmap := by rw [hI.hi]; rfl
  have hm : Meets s₁ o := by
    cases o with
    | alloc n => cases ho; exact firstFit_one (by rw [htop]; omega)
    | free p n => trivial
  refine ⟨inv_step hw hf hI hs hm, ?_⟩
  obtain ⟨-, rfl⟩ := hs
  cases o with
  | alloc n =>
    intro a ha
    simp only [exec] at ha
    split_ifs at ha
    · exact h1 a ha
    · rcases List.mem_cons.mp ha with rfl | ha
      · exact ho
      · exact h1 a ha
  | free p n => exact fun a ha => h1 a (List.mem_of_mem_erase ha)

omit hw hf in
theorem mem_freeSet (hI : Inv mmap s) {i : ℕ} :
    i ∈ freeSet s.machine ↔ i < topPage mmap ∧ bit s.machine.mem (bitmapOf mmap) i = false := by
  have htop : pageToBit s.machine.pmm.hiPageTop = topPage mmap := by rw [hI.hi]; rfl
  show i < pageToBit s.machine.pmm.hiPageTop ∧ bit s.machine.mem s.machine.pmm.bitmap i = false ↔ _
  rw [htop, hI.bitmap]

omit hw hf in
theorem free_iff_uncovered (hI : Inv mmap s) {i : ℕ} :
    i ∈ freeSet s.machine ↔ MarkedFree mmap i ∧ ¬ Covered s.live i := by
  rw [mem_freeSet hI]
  constructor
  · rintro ⟨hi, hbit⟩
    exact (hI.bits i hi).mp hbit
  · intro h
    exact ⟨h.1.2.1, (hI.bits i h.1.2.1).mpr h⟩

theorem pmmAlloc_one (hI : Inv mmap s) :
    (∃ i, 0 < i ∧ IsLeast (freeSet s.machine) i ∧ pmmAlloc s.machine 1 = (4096 * i,
      { mem := bitmapSet s.machine.mem (bitmapOf mmap) (toInt i)
        pmm := { s.machine.pmm with usedPageCnt := s.machine.pmm.usedPageCnt + 1 } })) ∨
    (freeSet s.machine = ∅ ∧ pmmAlloc s.machine 1 = (0, s.machine)) := by
  obtain ⟨-, hu, ht⟩ := initUsed_bounds hw hf
  have hle := hI.safe.livePages_le
  have hused := hI.used
  have hclear : ∀ {i}, i < topPage mmap →
      (ScanClear s.machine 1 i ↔ i ∈ freeSet s.machine) := by
    intro i hi
    rw [scanClear_one (by omega), mem_freeSet hI, hI.bitmap]
    simp [hi]
  rcases pmmAlloc_cases hw hf hI le_rfl with ⟨i, hi0, hi, h1, h2, h3⟩ | ⟨h1, h2⟩
  · refine Or.inl ⟨i, hi0, ⟨(hclear hi).mp h1, fun j hj => ?_⟩, ?_⟩
    · by_contra hlt
      exact h2 j (by omega) ((hclear ((mem_freeSet hI).mp hj).1).mpr hj)
    · rw [h3]
      have h4 : (i + 0) % 2 ^ 64 = i := by omega
      have h5 : (s.machine.pmm.usedPageCnt + 1) % 2 ^ 64 = s.machine.pmm.usedPageCnt + 1 := by
        omega
      simp only [setBits, h4, h5]
  · refine Or.inr ⟨Set.eq_empty_iff_forall_notMem.mpr fun i hi => ?_, h2⟩
    have hlt := ((mem_freeSet hI).mp hi).1
    exact h1 i hlt ((hclear hlt).mpr hi)

theorem freeSet_take {i c : ℕ} (hI : Inv mmap s) (hi : i < topPage mmap) :
    freeSet { mem := bitmapSet s.machine.mem (bitmapOf mmap) (toInt i)
              pmm := { s.machine.pmm with usedPageCnt := c } } = freeSet s.machine \ {i} := by
  obtain ⟨-, hu, ht⟩ := initUsed_bounds hw hf
  obtain ⟨pre, e, post, hh⟩ := exists_home hf.below hf.home
  have hp := placed_bitmapOf hh
  have hcov : topPage mmap ≤ 8 * (bitmapOf mmap).size := hf.covers
  have htop : pageToBit s.machine.pmm.hiPageTop = topPage mmap := by rw [hI.hi]; rfl
  ext j
  show j < pageToBit s.machine.pmm.hiPageTop ∧
    bit (bitmapSet s.machine.mem (bitmapOf mmap) (toInt i)) s.machine.pmm.bitmap j = false ↔ _
  rw [htop, hI.bitmap, Set.mem_sdiff, mem_freeSet hI, Set.mem_singleton_iff]
  by_cases hj : j < topPage mmap
  · rw [bit_bitmapSet hp (by omega) (by omega) (by omega) (by omega), Bool.or_eq_false_iff,
      decide_eq_false_iff_not]
    constructor
    · rintro ⟨h2, h3, h4⟩
      exact ⟨⟨h2, h3⟩, Ne.symm h4⟩
    · rintro ⟨⟨h2, h3⟩, h4⟩
      exact ⟨h2, h3, Ne.symm h4⟩
  · simp [hj]

theorem pmmFree_one {p : ℕ} (hI : Inv mmap s) (hm : (p, 1) ∈ s.live) : p / 4096 ∉ freeSet s.machine ∧
    freeSet (pmmFree s.machine p 1) = insert (p / 4096) (freeSet s.machine) := by
  have hI' : Inv mmap ⟨pmmFree s.machine p 1, s.live.erase (p, 1)⟩ := inv_free hw hf hI hm
  have hmark : MarkedFree mmap (p / 4096) := hI.safe.marked _ hm 0 Nat.zero_lt_one
  have hcov : Covered s.live (p / 4096) := ⟨(p, 1), hm, le_rfl, Nat.lt_succ_self _⟩
  refine ⟨fun h => ((free_iff_uncovered hI).mp h).2 hcov, Set.ext fun j => ?_⟩
  have hpage : j ∈ pagesOf (p, 1) ↔ j = p / 4096 := by
    rw [pagesOf, Finset.mem_Ico]
    omega
  rw [Set.mem_insert_iff, free_iff_uncovered hI]
  refine (free_iff_uncovered hI').trans ?_
  dsimp only
  rw [covered_erase hI.safe hm, hpage]
  by_cases hj : j = p / 4096
  · subst hj
    simp [hmark]
  · simp [hj]

theorem free_alloc_one {i : ℕ} (hI : Inv mmap s) (hi : i ∈ freeSet s.machine) :
    pmmFree { mem := bitmapSet s.machine.mem (bitmapOf mmap) (toInt i)
              pmm := { s.machine.pmm with usedPageCnt := s.machine.pmm.usedPageCnt + 1 } } (4096 * i) 1 =
      s.machine := by
  obtain ⟨-, hu, ht⟩ := initUsed_bounds hw hf
  obtain ⟨pre, e, post, hh⟩ := exists_home hf.below hf.home
  have hp := placed_bitmapOf hh
  have hcov : topPage mmap ≤ 8 * (bitmapOf mmap).size := hf.covers
  have hle := hI.safe.livePages_le
  have hused := hI.used
  obtain ⟨hilt, hic⟩ := (mem_freeSet hI).mp hi
  have hpb : (pageToBit (4096 * i) + 0) % 2 ^ 64 = i := by unfold pageToBit; omega
  have hcnt : (s.machine.pmm.usedPageCnt + 1 + (2 ^ 64 - 1)) % 2 ^ 64 =
      s.machine.pmm.usedPageCnt := by omega
  simp only [pmmFree, clearBits, hI.bitmap, hpb, hcnt]
  rw [bitmapClear_bitmapSet hp (by omega) (by omega) hic, ← hI.bitmap]

/-- **The single-page allocator refines the set of clear bits.** In every state of a run of
`pmm_alloc(1)` and `pmm_free(p, 1)` of live pages: allocation takes the least free page and nothing else,
it fails exactly when there is none and then changes nothing, freeing adds exactly its page, and freeing
what was just allocated restores the state. -/
theorem single_page_refines_set
    (hr : Run (fun s o s' => Step s o s' ∧ Single o) (start mmap m) ops s) :
    (∀ i, IsLeast (freeSet s.machine) i → (pmmAlloc s.machine 1).1 = 4096 * i ∧
      freeSet (pmmAlloc s.machine 1).2 = freeSet s.machine \ {i}) ∧
    ((pmmAlloc s.machine 1).1 = 0 ↔ freeSet s.machine = ∅) ∧
    (freeSet s.machine = ∅ → (pmmAlloc s.machine 1).2 = s.machine) ∧
    (∀ p, (p, 1) ∈ s.live → p / 4096 ∉ freeSet s.machine ∧
      freeSet (pmmFree s.machine p 1) = insert (p / 4096) (freeSet s.machine)) ∧
    ((pmmAlloc s.machine 1).1 ≠ 0 →
      pmmFree (pmmAlloc s.machine 1).2 (pmmAlloc s.machine 1).1 1 = s.machine) := by
  obtain ⟨hI, -⟩ := inv_of_single_run hw hf hr
  have hfree : ∀ p, (p, 1) ∈ s.live → p / 4096 ∉ freeSet s.machine ∧
      freeSet (pmmFree s.machine p 1) = insert (p / 4096) (freeSet s.machine) := fun p hm =>
    pmmFree_one hw hf hI hm
  rcases pmmAlloc_one hw hf hI with ⟨i, hi0, hleast, h1⟩ | ⟨hempty, h1⟩
  · have hilt := ((mem_freeSet hI).mp hleast.1).1
    rw [h1]
    refine ⟨fun i' hi' => ?_, ⟨fun h => ?_, fun h => ?_⟩, fun h => ?_, hfree, fun _ => ?_⟩
    · rw [hi'.unique hleast]
      exact ⟨rfl, freeSet_take hw hf hI hilt⟩
    · dsimp only at h; omega
    · rw [h] at hleast; exact absurd hleast.1 (Set.notMem_empty i)
    · rw [h] at hleast; exact absurd hleast.1 (Set.notMem_empty i)
    · exact free_alloc_one hw hf hI hleast.1
  · rw [h1]
    refine ⟨fun i hi => ?_, ⟨fun _ => hempty, fun _ => rfl⟩, fun _ => rfl, hfree,
      fun h => absurd rfl h⟩
    rw [hempty] at hi
    exact absurd hi.1 (Set.notMem_empty i)

end Single

theorem single_page_refines_set_smallMap :
    (pmmAlloc (exec (start smallMap fun _ => 0) (.alloc 1)).machine 1).1 = 0 ↔
      freeSet (exec (start smallMap fun _ => 0) (.alloc 1)).machine = ∅ := by
  have hstep : Step (start smallMap fun _ => 0) (.alloc 1)
      (exec (start smallMap fun _ => 0) (.alloc 1)) := ⟨⟨by decide, by decide⟩, rfl⟩
  exact (single_page_refines_set smallMap_wellFormed smallMap_fits (.cons ⟨hstep, rfl⟩ .nil)).2.1

/-! ### The counter -/

/-- The number of set bits below the top. -/
def setBitCount (s : Machine Pmm) : ℕ :=
  ((List.range (pageToBit s.pmm.hiPageTop)).filter fun i => bit s.mem s.pmm.bitmap i).length

theorem setBitCount_le (s : Machine Pmm) : setBitCount s ≤ pageToBit s.pmm.hiPageTop :=
  (List.length_filter_le _ _).trans_eq List.length_range

section Count
variable {mmap : List MmapEntry} (hw : WellFormed mmap) (he : EndsBelow mmap (2 ^ 52))
include hw he

theorem setBitCount_lt_used (m : Mem) (h4 : 4 ≤ hiPageTop mmap) :
    setBitCount (start mmap m).machine < (start mmap m).machine.pmm.usedPageCnt := by
  have hb : EndsBelow mmap (2 ^ 54) := fun e hm hc => by have := he e hm hc; omega
  obtain ⟨h1, h2, h3⟩ := usablePages_placed_le hw hb
  have hlt := hiPageTop_lt hb (by norm_num) (by norm_num)
  have hle := setBitCount_le (start mmap m).machine
  have hhi : (start mmap m).machine.pmm.hiPageTop = hiPageTop mmap := pmmInit_hiPageTop mmap m
  have hu : (start mmap m).machine.pmm.usedPageCnt = initUsed mmap := used_pmmInit hw hb m
  rw [hhi] at hle
  rw [hu, initUsed]
  rw [kbToPages_eq hlt] at *
  unfold topPage pageToBit at *
  omega

theorem no_pages_of_run {m : Mem} {ops : List PmmOp} {s : PmmState} (h4 : hiPageTop mmap < 4)
    (hr : Run Step (start mmap m) ops s) : s.machine.pmm.usedPageCnt = 0 ∧
      s.machine.pmm.hiPageTop = hiPageTop mmap ∧ s.live = [] := by
  have hb : EndsBelow mmap (2 ^ 54) := fun e hm hc => by have := he e hm hc; omega
  refine hr.invariant (I := fun s => s.machine.pmm.usedPageCnt = 0 ∧
    s.machine.pmm.hiPageTop = hiPageTop mmap ∧ s.live = []) ⟨?_, pmmInit_hiPageTop mmap m, rfl⟩ ?_
  · have hu : (start mmap m).machine.pmm.usedPageCnt = initUsed mmap := used_pmmInit hw hb m
    rw [hu, initUsed, kbToPages_eq (by omega)]
    omega
  · rintro s₁ o s₂ ⟨h1, h2, h3⟩ ⟨hv, rfl⟩
    cases o with
    | alloc n =>
      have ha : pmmAlloc s₁.machine n = (0, s₁.machine) := by
        unfold pmmAlloc; rw [if_pos (by omega)]
      simp only [exec, ha]
      exact ⟨h1, h2, h3⟩
    | free p n =>
      have hv' : (p, n) ∈ s₁.live := hv
      rw [h3] at hv'
      exact absurd hv' (by simp)

/-- **The counter.** `used_page_cnt` is the number of set bits in every state of every run exactly for
the maps whose memory ends before byte 4; on every other map it is too large right after `pmm_init`. -/
theorem used_eq_setBitCount_iff (m : Mem) :
    (∀ ops s, Run Step (start mmap m) ops s →
      s.machine.pmm.usedPageCnt = setBitCount s.machine) ↔ hiPageTop mmap < 4 := by
  constructor
  · intro h
    by_contra h4
    have h1 := setBitCount_lt_used hw he m (by omega)
    have h2 := h [] _ .nil
    omega
  · intro h4 ops s hr
    obtain ⟨h1, h2, -⟩ := no_pages_of_run hw he h4 hr
    have h3 := setBitCount_le s.machine
    rw [h2, pageToBit] at h3
    omega

end Count

theorem used_eq_setBitCount_iff_smallMap :
    (∀ ops s, Run Step (start smallMap fun _ => 0) ops s →
      s.machine.pmm.usedPageCnt = setBitCount s.machine) ↔ hiPageTop smallMap < 4 :=
  used_eq_setBitCount_iff smallMap_wellFormed
    (fun e hm hc => by have := smallMap_fits.below e hm hc; omega) _

/-- On the small map two bits are set after `pmm_init` and the counter is 33761. -/
theorem used_smallMap : ∃ s, Run Step (start smallMap fun _ => 0) [] s ∧
    s.machine.pmm.usedPageCnt = 33761 ∧ setBitCount s.machine = 2 :=
  ⟨_, .nil, by decide +kernel, by decide +kernel⟩

/-! ### Zeroed pages -/

/-- **What `pmm_allocz` should do**: nothing if `pmm_alloc` fails, and otherwise clear the bytes of
its pages and no others. -/
structure AlloczAtomic (s : Machine Pmm) (n : ℕ) : Prop where
  fails : (pmmAlloc s n).1 = 0 → pmmAllocz s n = (0, s)
  clears : (pmmAlloc s n).1 ≠ 0 → (pmmAllocz s n).1 = (pmmAlloc s n).1 ∧
    (pmmAllocz s n).2.pmm = (pmmAlloc s n).2.pmm ∧
    ∀ a, (pmmAllocz s n).2.mem a = if (pmmAlloc s n).1 ≤ a ∧ a < (pmmAlloc s n).1 + 4096 * n then 0
      else (pmmAlloc s n).2.mem a

/-- The search of `pmm_alloc` finds pages. -/
def Found (s : Machine Pmm) (n : ℕ) : Prop := s.pmm.usedPageCnt ≠ 0 ∧ getFfpRange s n ≠ 0

theorem ffpOuter_page (f : ℕ → Bool) (n : ℕ) : ∀ k i : ℕ,
    bitToPage (pageToBit (ffpOuter f n k i)) = ffpOuter f n k i
  | 0, _ => by
    rw [ffpOuter]
    decide
  | k + 1, i => by
    rw [ffpOuter]
    split_ifs
    · unfold bitToPage pageToBit
      omega
    · exact ffpOuter_page f n k (i + 1)

theorem pmmAlloc_fst (s : Machine Pmm) (n : ℕ) :
    (Found s n → (pmmAlloc s n).1 = getFfpRange s n ∧ (pmmAlloc s n).1 ≠ 0) ∧
      (¬ Found s n → pmmAlloc s n = (0, s)) := by
  have hpage : bitToPage (pageToBit (getFfpRange s n)) = getFfpRange s n := ffpOuter_page _ _ _ _
  unfold pmmAlloc Found
  refine ⟨fun ⟨h1, h2⟩ => ?_, fun h => ?_⟩
  · rw [if_neg (by omega)]
    dsimp only
    rw [if_neg h2]
    exact ⟨hpage, by rwa [hpage]⟩
  · by_cases h1 : s.pmm.usedPageCnt ≤ 0
    · rw [if_pos h1]
    · have h2 : getFfpRange s n = 0 := by
        by_contra h2
        exact h ⟨by omega, h2⟩
      rw [if_neg h1]
      simp [h2]

/-- **The zeroing of `pmm_allocz`.** When the search finds no pages, nothing changes exactly if the memory
from 0 on is zero already; when it does, the pages are cleared unless the number of bytes wraps. -/
theorem allocz_atomic_iff (s : Machine Pmm) (n : ℕ) : AlloczAtomic s n ↔
    (¬ Found s n → ∀ a < 4096 * n % 2 ^ 64, s.mem a = 0) ∧
      (Found s n → ∀ a, getFfpRange s n + 4096 * n % 2 ^ 64 ≤ a → a < getFfpRange s n + 4096 * n →
        (pmmAlloc s n).2.mem a = 0) := by
  obtain ⟨hfound, hnot⟩ := pmmAlloc_fst s n
  have hle : 4096 * n % 2 ^ 64 ≤ 4096 * n := Nat.mod_le _ _
  by_cases hF : Found s n
  · obtain ⟨h1, h2⟩ := hfound hF
    constructor
    · intro h
      refine ⟨fun hc => absurd hF hc, fun _ a ha1 ha2 => ?_⟩
      have hmem := (h.clears h2).2.2 a
      rw [if_pos (by omega)] at hmem
      rw [← hmem]
      exact (fill_of_not_mem fun hc => by have := hc.2; omega).symm
    · rintro ⟨-, h⟩
      refine ⟨fun hc => absurd hc h2, fun _ => ⟨rfl, rfl, fun a => ?_⟩⟩
      have hall : (pmmAllocz s n).2.mem a =
        fill (pmmAlloc s n).2.mem (pmmAlloc s n).1 (4096 * n % 2 ^ 64) 0 a := rfl
      rw [hall]
      by_cases hin : a ∈ Set.Ico (pmmAlloc s n).1 ((pmmAlloc s n).1 + 4096 * n % 2 ^ 64)
      · rw [fill_of_mem hin, if_pos ⟨hin.1, by have := hin.2; omega⟩]
      · rw [fill_of_not_mem hin]
        split_ifs with hr
        · exact h hF a (by rw [Set.mem_Ico] at hin; omega) (by omega)
        · rfl
  · have hz := hnot hF
    have hall : pmmAllocz s n = (0, { s with mem := fill s.mem 0 (4096 * n % 2 ^ 64) 0 }) := by
      unfold pmmAllocz
      rw [hz]
    constructor
    · intro h
      refine ⟨fun _ a ha => ?_, fun hc => absurd hc hF⟩
      have heq := h.fails (by rw [hz])
      rw [hall] at heq
      have hmem := congrArg (fun r : ℕ × Machine Pmm => r.2.mem a) heq
      dsimp only at hmem
      rw [← hmem]
      exact fill_of_mem ⟨Nat.zero_le _, by omega⟩
    · rintro ⟨h, -⟩
      refine ⟨fun _ => ?_, fun hc => absurd (by rw [hz]) hc⟩
      have hmem : fill s.mem 0 (4096 * n % 2 ^ 64) 0 = s.mem := by
        funext a
        by_cases ha : a < 4096 * n % 2 ^ 64
        · rw [fill_of_mem ⟨Nat.zero_le _, by omega⟩, h hF a ha]
        · exact fill_of_not_mem fun hc => ha (by have := hc.2; omega)
      rw [hall, hmem]

/-- A map without a free page: one page for the bitmap, and one of the kernel. -/
def fullMap : List MmapEntry := [⟨4096, 4096, .usable⟩, ⟨32768, 4096, .kernelAndModules⟩]

/-- **A failed `pmm_allocz(1)` clears page 0.** -/
theorem allocz_clears_page_zero : (pmmAlloc (pmmInit fullMap fun _ => 1).1 1).1 = 0 ∧
    (pmmInit fullMap fun _ => 1).1.mem 0 = 1 ∧ (pmmAllocz (pmmInit fullMap fun _ => 1).1 1).2.mem 0 = 0 ∧
      ¬ AlloczAtomic (pmmInit fullMap fun _ => 1).1 1 := by
  have h1 : (pmmAlloc (pmmInit fullMap fun _ => 1).1 1).1 = 0 := by decide +kernel
  have h2 : (pmmInit fullMap fun _ => 1).1.mem 0 = 1 := by decide +kernel
  have h3 : (pmmAllocz (pmmInit fullMap fun _ => 1).1 1).2.mem 0 = 0 := by decide +kernel
  refine ⟨h1, h2, h3, fun h => ?_⟩
  rw [h.fails h1, h2] at h3
  exact absurd h3 (by decide)

end FusionCore.Mm.PhysSpec
