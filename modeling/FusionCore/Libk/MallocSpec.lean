import FusionCore.Libk.MallocInit

/-! # How much a block holds

`malloc` compares the size without the metadata with 512 and picks a class for the size with it; the
largest class is 512, so that the blocks for 511 and 512 bytes are too small. Near `2 ^ 64` the
rounded size wraps: to no pages at all, which the physical memory manager does not find, or for the
last size to one page. These are the only blocks that do not hold what was asked for (`capacity_iff`). -/

namespace FusionCore.Libk.MallocSpec

open FusionCore.Lib.ByteMem FusionCore.Mm.Defs FusionCore.Mm.Phys FusionCore.Mm.Pages FusionCore.Mm.Slab
open FusionCore.Mm.SlabView FusionCore.Mm.SlabRep FusionCore.Mm.SlabOps FusionCore.Mm.PhysPages
open FusionCore.Libk.Malloc FusionCore.Libk.MallocInit

variable {h h' : Heap} {fuel size ptr : ℕ}

/-- The bytes of a block: the `slab_size` of the cache, or the pages. -/
def capacity (h : Heap) : Origin → ℕ
  | .slab index => load64 h.machine.mem (cacheSlabSize (h.slabCaches index))
  | .pages count => count * 4096

/-- The caches hold the sizes that `malloc_heap_init` gave them. -/
def ClassTable (h : Heap) : Prop :=
  ∀ k < 8, load64 h.machine.mem (cacheSlabSize (h.slabCaches k)) = classSize k

/-! ### Classes and pages -/

theorem getSlabCacheIndex_lt (n : ℕ) : getSlabCacheIndex n < 8 := by
  unfold getSlabCacheIndex
  split_ifs <;> norm_num

theorem le_classSize_iff (n : ℕ) : n ≤ classSize (getSlabCacheIndex n) ↔ n ≤ 512 := by
  unfold getSlabCacheIndex classSize
  split_ifs <;> norm_num <;> omega

theorem ffpOuter_zero (f : ℕ → Bool) : ∀ k i : ℕ, ffpOuter f 0 k i = 0
  | 0, _ => rfl
  | k + 1, i => by
    rw [ffpOuter, ffpInner]
    exact ffpOuter_zero f k (i + 1)

theorem pmmAllocz_zero (s : Machine Pmm) : (pmmAllocz s 0).1 = 0 := by
  have h0 : getFfpRange s 0 = 0 := ffpOuter_zero _ _ _
  unfold pmmAllocz pmmAlloc
  dsimp only
  rw [h0]
  split_ifs <;> rfl

theorem le_pages_iff {n : ℕ} (hn : n < 2 ^ 64) (h0 : alignUp ((n + 2) % 2 ^ 64) 4096 / 4096 ≠ 0) :
    n + 2 ≤ alignUp ((n + 2) % 2 ^ 64) 4096 / 4096 * 4096 ↔ n ≠ 2 ^ 64 - 1 := by
  rw [alignUp_mod, Nat.mul_div_cancel _ (by norm_num)] at h0 ⊢
  omega

/-! ### Capacity -/

/-- **The block holds the metadata and the size asked for** if and only if the size is not 511, 512 or
`2 ^ 64 - 1`, for every size for which `malloc` gets memory. -/
theorem capacity_iff (ht : ClassTable h) (hsize : size < 2 ^ 64)
    (hok : malloc h fuel size = .ok (ptr, h'))
    (hgot : ptr ≠ toUser 0) : size + 2 ≤ capacity h (mallocRoute size) ↔
      ¬ (size = 511 ∨ size = 512 ∨ size = 2 ^ 64 - 1) := by
  unfold mallocRoute
  split_ifs with hs
  · rw [capacity, ht _ (getSlabCacheIndex_lt _), le_classSize_iff]
    omega
  · rw [malloc_eq, mallocRoute, if_neg hs] at hok
    have h0 : alignUp ((size + 2) % 2 ^ 64) 4096 / 4096 ≠ 0 := by
      intro h0
      rw [h0] at hok
      obtain ⟨r, hr, hp⟩ := map_eq_ok hok
      have hr0 : r.1 = 0 := by
        rw [← Except.ok.inj hr]
        exact pmmAllocz_zero _
      have hp := (Prod.mk.inj hp).1
      exact hgot (by rw [← hp, hr0])
    rw [capacity, le_pages_iff hsize h0]
    omega

/-! ### Two blocks of the small map -/

theorem malloc_first {Good : Machine Pmm → Set ℕ → Prop} {pg : ℕ → ℕ} {H : Set ℕ} {k : ℕ}
    (hB : Built Good h 8 pg H) (hs : size ≤ 512) (hk : getSlabCacheIndex (size + 2) = k) (h2 : 2 ≤ k) :
    ∃ h', malloc h 2 size = .ok (toUser (pg k), h') ∧ pg k < 2 ^ 52 ∧ pg k ≠ 0 := by
  have hk8 : k < 8 := hk ▸ getSlabCacheIndex_lt _
  have hI := hB.inv k hk8 h2
  have hcap : 0 < cap (classSize k) := by interval_cases k <;> decide
  obtain ⟨c, hc⟩ := Nat.exists_eq_succ_of_ne_zero hcap.ne'
  have ht : takeFirst [fresh (classSize k) (pg k)] = some (pg k,
      [⟨pg k, ((List.range c).map (· + 1)).map (slot (classSize k) (pg k))⟩]) := by
    simp [takeFirst, fresh, hc, List.range_succ_eq_map, slot, Function.comp_def]
  obtain ⟨m', -, -, hres⟩ := alloc_take pmmSource hI ht
  have hpg := hI.pages (pg k) (Or.inr rfl)
  rcases hres ⟨true, false⟩ 2 with hres | ⟨hle, -⟩
  · rw [malloc_eq, mallocRoute, if_pos hs, takeBlock, hk, hres]
    exact ⟨_, rfl, hpg.2.2, hpg.2.1⟩
  · exact absurd hle (by simp)

theorem capacity_iff_small : ∃ h ptr h', mallocHeapInit (fun _ => 0) ⟨booted, fun _ => 0⟩ = .ok h ∧
    malloc h 2 100 = .ok (ptr, h') ∧ 100 + 2 ≤ capacity h (mallocRoute 100) := by
  obtain ⟨h, pg, H, hinit, hB, -⟩ := small_heap
  obtain ⟨h', hok, hlt, h0⟩ := malloc_first hB (show 100 ≤ 512 by norm_num) (k := 5) rfl (by norm_num)
  refine ⟨h, _, h', hinit, hok, (capacity_iff hB.size_eq (by norm_num) hok ?_).mpr (by norm_num)⟩
  unfold toUser heapStartAddr
  omega

/-- 512 bytes and the metadata do not fit into a buffer of 512 bytes. -/
theorem capacity_512 : ∃ h ptr h', mallocHeapInit (fun _ => 0) ⟨booted, fun _ => 0⟩ = .ok h ∧
    malloc h 2 512 = .ok (ptr, h') ∧ ptr ≠ toUser 0 ∧ ¬ 512 + 2 ≤ capacity h (mallocRoute 512) := by
  obtain ⟨h, pg, H, hinit, hB, -⟩ := small_heap
  obtain ⟨h', hok, hlt, h0⟩ := malloc_first hB (show 512 ≤ 512 by norm_num) (k := 7) rfl (by norm_num)
  refine ⟨h, _, h', hinit, hok, ?_, ?_⟩
  · unfold toUser heapStartAddr
    omega
  · have hcap : capacity h (mallocRoute 512) = 512 := hB.size_eq 7 (by norm_num)
    rw [hcap]
    norm_num

end FusionCore.Libk.MallocSpec
