import FusionCore.Libk.MallocRun
import FusionCore.Mm.SlabAlloc

/-! # Page counts, failures and exhausted classes

Three laws of `malloc` and `free`, with the exact condition under which each holds.

* `pages_round_trip_iff`: `free` gives the pages of a large block back exactly if their number fits
  into the two bytes before the block.
* `malloc_fails_iff`: without memory `malloc` panics for a small block; for a large one it writes a
  header at address 0 and returns a pointer.
* `small_malloc_available_iff`: `malloc` does not ask for growth, so that it panics for a class
  without a free buffer also when there are free pages. -/

namespace FusionCore.Libk.MallocFail

open FusionCore.Lib.ByteMem FusionCore.Lib.Runs FusionCore.Mm
open FusionCore.Mm.Defs FusionCore.Mm.Phys FusionCore.Mm.PhysInit FusionCore.Mm.Pages
  FusionCore.Mm.PhysPages
open FusionCore.Mm.Slab FusionCore.Mm.SlabView FusionCore.Mm.SlabRep FusionCore.Mm.SlabOps
open FusionCore.Mm.SlabAlloc FusionCore.Libk.Malloc FusionCore.Libk.MallocInit FusionCore.Libk.MallocSpec
open FusionCore.Libk.MallocRun
open FusionCore.Mm.PhysRun (Inv inv_start start)
open FusionCore.Mm.PhysSpec (Found smallMap smallMap_wellFormed smallMap_fits ffpOuter_page pmmAlloc_fst)

variable {h h' t : Heap} {fuel size ptr p n : ℕ} {s : Machine Pmm}

/-! ### Blocks of pages -/

/-- `page_count` of `malloc`. -/
def pageCount (size : ℕ) : ℕ := alignUp ((size + 2) % 2 ^ 64) 4096 / 4096

/-- **What `free` should do with a block of pages**: give the pages that `malloc` took to `pmm_free`. -/
def GivesPages (h : Heap) (ptr p n : ℕ) : Prop :=
  ∀ fuel, free h fuel ptr = .ok { h with machine := pmmFree h.machine p n }

theorem pmmAllocz_page (s : Machine Pmm) (n : ℕ) :
    (pmmAllocz s n).1 % 4096 = 0 ∧ (pmmAllocz s n).1 < 2 ^ 64 := by
  have hfst : (pmmAllocz s n).1 = (pmmAlloc s n).1 := rfl
  obtain ⟨h1, h2⟩ := pmmAlloc_fst s n
  rw [hfst]
  by_cases hF : Found s n
  · have hpage : bitToPage (pageToBit (getFfpRange s n)) = getFfpRange s n := ffpOuter_page _ _ _ _
    rw [(h1 hF).1, ← hpage]
    unfold bitToPage
    omega
  · rw [h2 hF]
    exact ⟨rfl, by norm_num⟩

theorem toUser_page_ne_zero (hp : p % 4096 = 0) : toUser p ≠ 0 := by
  unfold toUser heapStartAddr
  omega

theorem route_pages (hs : 512 < size) : mallocRoute size = .pages (pageCount size) := by
  rw [mallocRoute, if_neg (by omega)]
  rfl

theorem malloc_pages_eq (fuel : ℕ) (hs : 512 < size)
    (htake : pmmAllocz h.machine (pageCount size) = (p, s)) :
    malloc h fuel size =
      .ok (toUser p, { h with machine := { s with mem := store16 s.mem p (pageCount size) } }) := by
  rw [malloc_eq, route_pages hs, takeBlock, htake]
  rfl

theorem free_pages_eq (hp : p % 4096 = 0 ∧ p < 2 ^ 64) (hh : load16 t.machine.mem p = n) (fuel : ℕ) :
    free t fuel (toUser p) = .ok { t with machine := pmmFree t.machine p n } := by
  rw [free_eq t fuel (toUser_page_ne_zero hp.1), ofUser_toUser hp.2, freeRoute, if_neg (by omega), hh]
  rfl

theorem pmmFree_inj {k : ℕ} (hk : k < 2 ^ 64) (hn : n < 2 ^ 64)
    (he : pmmFree s p k = pmmFree s p n) : k = n := by
  have hcnt := congrArg (fun s : Machine Pmm => s.pmm.usedPageCnt) he
  simp only [pmmFree] at hcnt
  omega

theorem pageCount_lt_iff (h0 : pageCount size ≠ 0) :
    pageCount size < 2 ^ 64 ∧ (pageCount size < 65536 ↔ (size + 2) % 2 ^ 64 ≤ 65535 * 4096) := by
  unfold pageCount at h0 ⊢
  rw [alignUp_mod, Nat.mul_div_cancel _ (by norm_num)] at h0 ⊢
  omega

/-- **`free` gives back exactly the pages that `malloc` took** if and only if there are fewer than
65536 of them. The header is as `malloc` wrote it when the block is freed; everything else may have
changed. -/
theorem pages_round_trip_iff (hs : 512 < size) (htake : pmmAllocz h.machine (pageCount size) = (p, s))
    (hp : p ≠ 0) (hok : malloc h fuel size = .ok (ptr, h'))
    (hkept : load16 t.machine.mem p = load16 h'.machine.mem p) :
    GivesPages t ptr p (pageCount size) ↔ (size + 2) % 2 ^ 64 ≤ 65535 * 4096 := by
  have h0 : pageCount size ≠ 0 := by
    intro h0
    have hz := pmmAllocz_zero h.machine
    rw [h0] at htake
    rw [htake] at hz
    exact hp hz
  obtain ⟨hlt, hiff⟩ := pageCount_lt_iff h0
  have hpage := pmmAllocz_page h.machine (pageCount size)
  rw [htake] at hpage
  rw [malloc_pages_eq _ hs htake] at hok
  obtain ⟨hptr, hh⟩ := Prod.mk.inj (Except.ok.inj hok)
  rw [← hh, load16_store16] at hkept
  rw [← hiff, ← hptr]
  constructor
  · intro hg
    have hfree := hg 0
    rw [free_pages_eq hpage hkept] at hfree
    have heq := pmmFree_inj (lt_of_le_of_lt (Nat.mod_le _ _) hlt) hlt
      (congrArg Heap.machine (Except.ok.inj hfree))
    omega
  · intro hn fuel
    rw [free_pages_eq hpage hkept, Nat.mod_eq_of_lt (by omega)]

theorem pages_round_trip_iff_small : ∃ ptr h', malloc ⟨booted, fun _ => 0⟩ 0 600 = .ok (ptr, h') ∧
    GivesPages h' ptr 8192 1 := by
  have hp : (pmmAllocz booted (pageCount 600)).1 = 8192 := by decide +kernel
  generalize booted = m at hp ⊢
  obtain ⟨s, hs⟩ : ∃ s, pmmAllocz m (pageCount 600) = (8192, s) := ⟨_, by rw [← hp]⟩
  have hok := malloc_pages_eq (h := ⟨m, fun _ => 0⟩) 0 (show 512 < 600 by norm_num) hs
  exact ⟨_, _, hok, (pages_round_trip_iff (by norm_num) hs (by norm_num) hok rfl).mpr (by norm_num)⟩

/-- A map with 70000 pages of memory. -/
def bigMap : List MmapEntry := [⟨4096, 70000 * 4096, .usable⟩]

theorem bigMap_wellFormed : WellFormed bigMap where
  aligned := by simp [bigMap]
  disjoint := List.pairwise_singleton _ _

theorem bigMap_fits : Fits bigMap where
  below := by
    intro e he _
    rw [List.mem_singleton.mp he]
    norm_num
  covers := by decide
  home := ⟨_, List.mem_singleton_self _, rfl, by decide⟩

theorem bigMap_marked {i : ℕ} (h4 : 4 ≤ i) (hi : i ≤ 70000) : MarkedFree bigMap i := by
  have htop : topPage bigMap = 70001 := by decide
  have hbm : bitmapBytes bigMap = Set.Ico 4096 16384 := by
    unfold bitmapBytes
    rw [show homeBase bigMap = 4096 by decide, show bitmapSize (hiPageTop bigMap) = 12288 by decide]
  refine ⟨by omega, by omega, ⟨⟨4096, 70000 * 4096, .usable⟩, by simp [bigMap], rfl, ?_⟩, ?_⟩
  · simp only [range, Set.mem_Ico]
    omega
  · rw [hbm, Set.mem_Ico]
    omega

/-- **A block of 65536 pages is not given back**: `free` passes 0 for the number of pages. -/
theorem pages_65536_lost : ∃ ptr h' p, p ≠ 0 ∧
    (pmmAllocz (start bigMap fun _ => 0).machine (pageCount 268435454)).1 = p ∧
    malloc ⟨(start bigMap fun _ => 0).machine, fun _ => 0⟩ 0 268435454 = .ok (ptr, h') ∧
    pageCount 268435454 = 65536 ∧
    (∀ fuel, free h' fuel ptr = .ok { h' with machine := pmmFree h'.machine p 0 }) ∧
    ¬ GivesPages h' ptr p 65536 := by
  have hw := bigMap_wellFormed
  have hf := bigMap_fits
  have hI := inv_start hw hf fun _ => 0
  have hcount : pageCount 268435454 = 65536 := by decide
  have htop : topPage bigMap = 70001 := by decide
  have hscan : ScanClear (start bigMap fun _ => 0).machine 65536 4 := by
    intro j hj
    have hi : (4 + pageToBit j) % 2 ^ 64 = 4 + j / 4096 := by unfold pageToBit; omega
    rw [hi, hI.bitmap]
    refine (hI.bits _ (by omega)).mpr ⟨bigMap_marked (by omega) (by omega), ?_⟩
    rintro ⟨b, hb, -⟩
    exact absurd hb List.not_mem_nil
  obtain ⟨j, hj0, -, hjp, -⟩ := pmmAllocz_found hw hf hI (show 1 ≤ 65536 by norm_num)
    (show 4 < topPage bigMap by omega) hscan
  rw [← hcount] at hjp
  generalize (start bigMap fun _ => 0).machine = m at hjp
  obtain ⟨r, hr⟩ : ∃ r, pmmAllocz m (pageCount 268435454) = r := ⟨_, rfl⟩
  have hpage := pmmAllocz_page m (pageCount 268435454)
  rw [hr] at hjp hpage
  have hok := malloc_pages_eq (h := ⟨m, fun _ => 0⟩) 0 (show 512 < 268435454 by norm_num) hr
  have hhead : ∀ m' : Mem, load16 (store16 m' r.1 (pageCount 268435454)) r.1 = 0 := fun m' => by
    rw [load16_store16, hcount]
    norm_num
  refine ⟨_, _, r.1, by rw [hjp]; omega, by rw [hr], hok, hcount,
    fun fuel => free_pages_eq hpage (hhead _) fuel, fun hg => ?_⟩
  have hfree := hg 0
  rw [free_pages_eq hpage (hhead _)] at hfree
  have heq := pmmFree_inj (by norm_num) (by norm_num) (congrArg Heap.machine (Except.ok.inj hfree))
  norm_num at heq

/-! ### No memory -/

/-- The allocator that `malloc` chooses gives no memory: it returns NULL, or stops the kernel. -/
def NoMemory (h : Heap) (fuel size : ℕ) : Prop :=
  (∃ s, takeBlock h fuel (mallocRoute size) = .ok (0, s)) ∨
    ∃ msg, takeBlock h fuel (mallocRoute size) = .error (.panic msg)

/-- The bytes that a failing call may write: the record of the cache. -/
def ownBytes (h : Heap) : Origin → Set ℕ
  | .slab k => Set.Ico (h.slabCaches k) (h.slabCaches k + 40)
  | .pages _ => ∅

/-- **A failure that is seen**: `malloc` panics, or it returns NULL and has written no memory that is
not the allocator's. -/
def FailsCleanly (h : Heap) (fuel size : ℕ) : Prop :=
  (∃ msg, malloc h fuel size = .error (.panic msg)) ∨
    ∃ h', malloc h fuel size = .ok (0, h') ∧
      DiffersOn (ownBytes h (mallocRoute size)) h.machine.mem h'.machine.mem

/-- **Without memory `malloc` fails cleanly** exactly for the sizes that have a cache. -/
theorem malloc_fails_iff (hno : NoMemory h fuel size) : FailsCleanly h fuel size ↔ size ≤ 512 := by
  constructor
  · intro hfail
    by_contra hs
    -- the pointer to a block of pages is never NULL, not even for page 0
    have hok := malloc_pages_eq fuel (show 512 < size by omega)
      (rfl : pmmAllocz h.machine (pageCount size) = _)
    rcases hfail with ⟨msg, hp⟩ | ⟨h', hr, -⟩
    · rw [hok] at hp
      cases hp
    · rw [hok] at hr
      exact toUser_page_ne_zero (pmmAllocz_page _ _).1 (Prod.mk.inj (Except.ok.inj hr)).1
  · intro hs
    have hroute : mallocRoute size = .slab (getSlabCacheIndex (size + 2)) := if_pos hs
    rcases hno with ⟨s, hr⟩ | ⟨msg, hr⟩
    · rw [hroute] at hr
      exact absurd rfl (alloc_ne_zero hr)
    · refine Or.inl ⟨msg, ?_⟩
      rw [malloc_eq, hr]
      rfl

theorem few_heap : ∃ h H, mallocHeapInit (fun _ => 0)
    ⟨(start (fewPages 16) fun _ => 0).machine, fun _ => 0⟩ =
    .ok h ∧ Handed (fewPages 16) h.machine H ∧ (pmmSource.allocz h.machine).1 = 0 := by
  have h16 : 16 ≤ 200 := by norm_num
  have hL := fewPages_lawful h16
  have hG := handed_few h16 fun _ => 0
  have hserves : ∀ (s : Machine Pmm) (F : Finset ℕ), Handed (fewPages 16) s F → F.card < 16 →
      (pmmSource.allocz s).1 ≠ 0 := fun s F hF hc =>
    serves_of_marked fewPages_wellFormed (fewPages_fits h16) hF
      (fun i h1 h2 => (fewPages_marked_iff h16).mpr ⟨h1, by omega⟩) hc
  obtain ⟨h, hok⟩ := init_returns (fun _ => 0)
    (h := ⟨(start (fewPages 16) fun _ => 0).machine, fun _ => 0⟩)
    hL hserves hG le_rfl
  obtain ⟨pg, H, hB, -⟩ := built_of_init hL hG hok
  refine ⟨h, H, hok, hB.good, (fewPages_fails_iff h16 hB.good).mpr fun i h2 h17 => ?_⟩
  -- the pages of the caches and slabs are different, and there are no others
  have hsub : (Finset.range 8).image h.slabCaches ∪ (Finset.range 8).image pg ⊆
      (Finset.Ico 2 18).image (4096 * ·) := by
    have harena : ∀ q ∈ H, q ∈ (Finset.Ico 2 18).image (4096 * ·) := fun q hq => by
      obtain ⟨hq4, hmark⟩ := hL.handed hB.good hq
      obtain ⟨h1, h3⟩ := (fewPages_marked_iff h16).mp hmark
      exact Finset.mem_image.mpr ⟨q / 4096, Finset.mem_Ico.mpr ⟨h1, by omega⟩, by omega⟩
    intro q hq
    rcases Finset.mem_union.mp hq with hq | hq <;> obtain ⟨k, hk, rfl⟩ := Finset.mem_image.mp hq
    · exact harena _ (hB.mem k (Finset.mem_range.mp hk)).1
    · exact harena _ (hB.mem k (Finset.mem_range.mp hk)).2
  have hdis : Disjoint ((Finset.range 8).image h.slabCaches) ((Finset.range 8).image pg) := by
    rw [Finset.disjoint_left]
    intro q hq hq'
    obtain ⟨k, hk, rfl⟩ := Finset.mem_image.mp hq
    obtain ⟨l, hl, he⟩ := Finset.mem_image.mp hq'
    exact hB.distinct.cache_ne k (Finset.mem_range.mp hk) l (Finset.mem_range.mp hl) he.symm
  have hcard : ((Finset.range 8).image h.slabCaches ∪ (Finset.range 8).image pg).card = 16 := by
    rw [Finset.card_union_of_disjoint hdis, Finset.card_image_of_injOn fun k hk l hl he =>
      hB.distinct.cache_inj k (by simpa using hk) l (by simpa using hl) he,
      Finset.card_image_of_injOn fun k hk l hl he =>
      hB.distinct.page_inj k (by simpa using hk) l (by simpa using hl) he]
    simp
  have hall := Finset.eq_of_subset_of_card_le hsub (by rw [hcard]; exact Finset.card_image_le)
  have hi : 4096 * i ∈ (Finset.Ico 2 18).image (4096 * ·) :=
    Finset.mem_image.mpr ⟨i, Finset.mem_Ico.mpr ⟨h2, by omega⟩, rfl⟩
  rw [← hall] at hi
  rcases Finset.mem_union.mp hi with hi | hi <;> obtain ⟨k, hk, hk'⟩ := Finset.mem_image.mp hi
  · exact hk' ▸ (hB.mem k (Finset.mem_range.mp hk)).1
  · exact hk' ▸ (hB.mem k (Finset.mem_range.mp hk)).2

/-- **`malloc(600)` without a free page** writes a header at address 0 and returns a pointer into the heap
window. -/
theorem malloc_header_at_zero : ∃ h h',
    mallocHeapInit (fun _ => 0) ⟨(start (fewPages 16) fun _ => 0).machine, fun _ => 0⟩ = .ok h ∧
    NoMemory h 0 600 ∧ malloc h 0 600 = .ok (heapStartAddr + 2, h') ∧ load16 h'.machine.mem 0 = 1 ∧
      ¬ FailsCleanly h 0 600 := by
  obtain ⟨h, H, hok, -, h0⟩ := few_heap
  have hcount : pageCount 600 = 1 := by decide
  obtain ⟨s, hs⟩ : ∃ s, pmmAllocz h.machine (pageCount 600) = (0, s) := ⟨_, by
    rw [hcount]
    exact Prod.ext h0 rfl⟩
  have hno : NoMemory h 0 600 := Or.inl ⟨s, by
    rw [route_pages (by norm_num), takeBlock, hs]⟩
  have hm := malloc_pages_eq 0 (show 512 < 600 by norm_num) hs
  refine ⟨h, _, hok, hno, hm, (load16_store16 _ _ _).trans ?_, fun hf => ?_⟩
  · rw [hcount]
    norm_num
  · exact absurd ((malloc_fails_iff hno).mp hf) (by norm_num)

/-! ### Free buffers and free pages -/

/-- **`malloc` stops the kernel only when there is no memory**: no slab of the class has a free
buffer, and the physical memory manager has no page to grow the class with. -/
def Available (h : Heap) (size : ℕ) : Prop :=
  ∀ fuel msg, malloc h fuel size = .error (.panic msg) →
    NoBuffer h.machine.mem (h.slabCaches (getSlabCacheIndex (size + 2))) ∧ ¬ Found h.machine 1

theorem malloc_panics_iff (hs : size ≤ 512) (hc : h.slabCaches (getSlabCacheIndex (size + 2)) ≠ 0) :
    (∃ fuel msg, malloc h fuel size = .error (.panic msg)) ↔
      NoBuffer h.machine.mem (h.slabCaches (getSlabCacheIndex (size + 2))) := by
  rw [← alloc_panics_iff (A := pmmSource) hc]
  have hroute : mallocRoute size = .slab (getSlabCacheIndex (size + 2)) := if_pos hs
  constructor
  · rintro ⟨fuel, msg, hp⟩
    rw [malloc_eq, hroute, takeBlock] at hp
    cases hr : slabCacheAlloc pmmSource ⟨true, false⟩ (h.slabCaches (getSlabCacheIndex (size + 2))) fuel
        h.machine with
    | error e =>
      rw [hr] at hp
      cases hp
      exact ⟨fuel, msg, hr⟩
    | ok r =>
      rw [hr] at hp
      cases hp
  · rintro ⟨fuel, msg, hp⟩
    refine ⟨fuel, msg, ?_⟩
    rw [malloc_eq, hroute, takeBlock, hp]
    rfl

theorem create_ne_zero {flags : SlabFlags} {name : ℕ} {r : ℕ × Machine Pmm} (hp : flags.panic = true)
    (hok : slabCacheCreate pmmSource flags name size s = .ok r) : r.1 ≠ 0 := by
  obtain ⟨hle, hpow⟩ := SlabLife.asserted hok
  rw [SlabLife.slabCacheCreate_eq hle hpow] at hok
  by_cases h0 : (pmmSource.allocz s).1 = 0
  · rw [if_pos h0, if_pos hp] at hok
    cases hok
  · rw [if_neg h0] at hok
    split at hok
    · cases hok
    · cases hok
      exact h0

theorem createCaches_ne_zero {names : ℕ → ℕ} {sizes : List ℕ} {j : ℕ}
    (hok : createCaches names sizes j h = .ok h') :
    (∀ k < j, h'.slabCaches k = h.slabCaches k) ∧ ∀ k, j ≤ k → k < j + sizes.length →
    h'.slabCaches k ≠ 0 := by
  induction sizes generalizing j h with
  | nil =>
    cases hok
    exact ⟨fun _ _ => rfl, fun k h1 h2 => by simp at h2; omega⟩
  | cons size sizes ih =>
    rw [createCaches] at hok
    cases hr : slabCacheCreate pmmSource ⟨true, true⟩ (names j) size h.machine with
    | error e =>
      rw [hr] at hok
      cases hok
    | ok r =>
      rw [hr] at hok
      obtain ⟨hold, hnew⟩ := ih hok
      have hr0 : r.1 ≠ 0 := create_ne_zero rfl hr
      refine ⟨fun k hk => ?_, fun k h1 h2 => ?_⟩
      · exact (hold k (by omega)).trans (Function.update_of_ne (by omega) _ _)
      · rcases Nat.eq_or_lt_of_le h1 with rfl | h1
        · rw [hold j (by omega)]
          exact (Function.update_self j r.1 h.slabCaches).trans_ne hr0
        · exact hnew k h1 (by rw [List.length_cons] at h2; omega)

theorem caches_of_step {s t : HeapState} {o : HeapOp} (hs : Step s o t) :
    t.heap.slabCaches = s.heap.slabCaches := by
  obtain ⟨-, fuel, hok⟩ := hs
  cases o with
  | malloc size =>
    obtain ⟨r, hr, rfl⟩ := map_eq_ok hok
    rw [malloc_eq] at hr
    obtain ⟨-, -, rfl⟩ := map_eq_ok hr
    rfl
  | free ptr =>
    obtain ⟨h, hh, rfl⟩ := map_eq_ok hok
    by_cases h0 : ptr = 0
    · rw [free, if_pos h0] at hh
      cases hh
      rfl
    · rw [free_eq _ _ h0] at hh
      obtain ⟨-, -, rfl⟩ := map_eq_ok hh
      rfl

theorem caches_of_run {live : List (ℕ × Origin)} {ops : List HeapOp} {s : HeapState}
    (hrun : Run Step ⟨h, live⟩ ops s) : s.heap.slabCaches = h.slabCaches :=
  hrun.invariant (I := fun s : HeapState => s.heap.slabCaches = h.slabCaches) rfl
    fun _ _ _ hI hs => (caches_of_step hs).trans hI

/-- **Availability** in every state of every run of the heap: `malloc` of a size with a cache stops the
kernel only for want of memory if and only if the class has a free buffer, or no page is free. -/
theorem small_malloc_available_iff {names : ℕ → ℕ} {h₀ : Heap} {ops : List HeapOp} {s : HeapState}
    (hinit : mallocHeapInit names h₀ = .ok h) (hrun : Run Step ⟨h, []⟩ ops s) (hs : size ≤ 512) :
    Available s.heap size ↔
      ¬ NoBuffer s.heap.machine.mem (s.heap.slabCaches (getSlabCacheIndex (size + 2))) ∨
        ¬ Found s.heap.machine 1 := by
  have hc : s.heap.slabCaches (getSlabCacheIndex (size + 2)) ≠ 0 := by
    rw [caches_of_run hrun]
    exact (createCaches_ne_zero hinit).2 _ (Nat.zero_le _) (getSlabCacheIndex_lt _)
  have hpanics := malloc_panics_iff hs hc
  constructor
  · intro hav
    by_cases hno : NoBuffer s.heap.machine.mem (s.heap.slabCaches (getSlabCacheIndex (size + 2)))
    · obtain ⟨fuel, msg, hp⟩ := hpanics.mpr hno
      exact Or.inr (hav fuel msg hp).2
    · exact Or.inl hno
  · intro hcond fuel msg hp
    have hno := hpanics.mp ⟨fuel, msg, hp⟩
    exact ⟨hno, hcond.resolve_left (not_not.mpr hno)⟩

theorem small_malloc_available_iff_small : ∃ h, mallocHeapInit (fun _ => 0) ⟨booted, fun _ => 0⟩ = .ok h ∧
    Available h 500 := by
  obtain ⟨h, pg, H, hinit, hB, -⟩ := small_heap
  refine ⟨h, hinit, (small_malloc_available_iff hinit .nil (by norm_num)).mpr (Or.inl fun hno => ?_)⟩
  -- the slab is fresh
  obtain ⟨fuel, msg, hp⟩ := (alloc_panics_iff (A := pmmSource) (s := h.machine)
    ((createCaches_ne_zero hinit).2 7 (by norm_num) (by decide))).mpr hno
  obtain ⟨c, hc⟩ : ∃ c, cap (classSize 7) = c + 1 := ⟨6, by decide⟩
  have ht : takeFirst [fresh (classSize 7) (pg 7)] = some (pg 7,
      [⟨pg 7, ((List.range c).map (· + 1)).map (slot (classSize 7) (pg 7))⟩]) := by
    simp [takeFirst, fresh, hc, List.range_succ_eq_map, slot, Function.comp_def]
  obtain ⟨m', -, -, hres⟩ := alloc_take pmmSource (hB.inv 7 (by norm_num) (by norm_num)) ht
  rcases hres ⟨true, false⟩ fuel with hr | ⟨-, hr⟩ <;> rw [hr] at hp <;> cases hp

/-! ### Seven blocks of 500 bytes -/

theorem malloc_run {mmap : List MmapEntry} {F : Set ℕ} {m₀ : Mem} {pg : ℕ → ℕ} {pm : List (ℕ × ℕ)} {k : ℕ}
    (hw : WellFormed mmap) (hf : Fits mmap) (hr : mallocRoute size = .slab k) (h7 : 7 ≤ size)
    (hsz : size < 2 ^ 64) (l : List ℕ) :
    ∀ {h : Heap} {vs : ℕ → List View} {L : ℕ → List ℕ} (live : List (ℕ × Origin)),
      Core mmap F m₀ h pg vs L pm → vs k = [⟨p, l⟩] →
      ∃ s vs' L', Run Step ⟨h, live⟩ (List.replicate l.length (.malloc size)) s ∧
        Core mmap F m₀ s.heap pg vs' L' pm ∧ vs' k = [⟨p, []⟩] := by
  induction l with
  | nil =>
    intro h vs L live hC hv
    exact ⟨_, vs, L, .nil, hC, hv⟩
  | cons b l ih =>
    intro h vs L live hC hv
    obtain ⟨h', ⟨hstep, -⟩, -, hC', -⟩ := hC.malloc_step live hw hf hr h7 hsz (b := b) (v := [⟨p, l⟩])
      (by rw [hv]; simp [takeFirst])
    obtain ⟨s, vs', L', hrun, hC'', hv'⟩ := ih ((toUser b, .slab k) :: live) hC' (Function.update_self ..)
    exact ⟨s, vs', L', hrun.cons hstep, hC'', hv'⟩

theorem small_serves {h : Heap} {pm : List (ℕ × ℕ)} {H : Set ℕ} (hI : Inv smallMap ⟨h.machine, pm⟩)
    (hH : ∀ b, b ∈ pm ↔ b.2 = 1 ∧ b.1 ∈ H) (pg : ℕ → ℕ)
    (hO : ∀ p ∈ H, p ∈ (∅ : Set ℕ) ∨ ∃ k < 8, p = h.slabCaches k ∨ p = pg k) : Found h.machine 1 := by
  let S := (Finset.range 8).image h.slabCaches ∪ (Finset.range 8).image pg
  have hsub : H ⊆ ↑S := fun q hq => by
    obtain ⟨k, hk, rfl | rfl⟩ := (hO q hq).resolve_left (Set.notMem_empty _)
    · exact Finset.mem_coe.mpr (Finset.mem_union_left _
        (Finset.mem_image_of_mem _ (Finset.mem_range.mpr hk)))
    · exact Finset.mem_coe.mpr (Finset.mem_union_right _
        (Finset.mem_image_of_mem _ (Finset.mem_range.mpr hk)))
  have hfin : H.Finite := S.finite_toSet.subset hsub
  have hcard : hfin.toFinset.card ≤ 16 := by
    have h1 := Finset.card_le_card (show hfin.toFinset ⊆ S from fun q hq =>
      hsub (hfin.mem_toFinset.mp hq))
    have h2 := Finset.card_union_le ((Finset.range 8).image h.slabCaches) ((Finset.range 8).image pg)
    have h3 : ((Finset.range 8).image h.slabCaches).card ≤ 8 := Finset.card_image_le.trans (by simp)
    have h4 : ((Finset.range 8).image pg).card ≤ 8 := Finset.card_image_le.trans (by simp)
    have h5 : S.card ≤ 16 := h2.trans (Nat.add_le_add h3 h4)
    exact h1.trans h5
  refine (found_iff _).mpr (smallMap_serves (F := hfin.toFinset) ⟨pm, hI, fun b => ?_⟩ (by omega))
  rw [hfin.coe_toFinset]
  exact hH b

theorem seven_blocks : ∃ h s fuel msg, mallocHeapInit (fun _ => 0) ⟨booted, fun _ => 0⟩ = .ok h ∧
    Run Step ⟨h, []⟩ (List.replicate 7 (.malloc 500)) s ∧
    takeBlock s.heap fuel (mallocRoute 500) = .error (.panic msg) ∧ Found s.heap.machine 1 := by
  obtain ⟨h, hinit⟩ := init_returns (fun _ => 0) (h := ⟨booted, fun _ => 0⟩) smallMap_lawful
    (fun _ _ hG hc => smallMap_serves hG hc) handed_booted (by norm_num)
  obtain ⟨pg, H, hB, hK, hO⟩ :=
    built_of_init smallMap_lawful (h := ⟨booted, fun _ => 0⟩) handed_booted hinit
  obtain ⟨pm, hC, hH⟩ := core_of_built hB hK
  have hr : mallocRoute 500 = .slab 7 := by decide
  obtain ⟨s, vs, L, hrun, hC', hv⟩ := malloc_run smallMap_wellFormed smallMap_fits hr (by norm_num)
    (by norm_num) (fresh (classSize 7) (pg 7)).free (p := pg 7) [] hC rfl
  have hlen : (fresh (classSize 7) (pg 7)).free.length = 7 := by
    rw [show classSize 7 = 512 from rfl, fresh, List.length_map, List.length_range]
    decide
  rw [hlen] at hrun
  obtain ⟨m', -, -, hres⟩ := alloc_none pmmSource (hC'.inv 7 (by norm_num) (by norm_num))
    (show takeFirst (vs 7) = none by rw [hv]; simp [takeFirst])
  have hp : takeBlock s.heap ((vs 7).length + 2) (mallocRoute 500) =
      .error (.panic "slab_cache_alloc('%s'): Couldn't find allocatable memory\n") := by
    rw [hr, takeBlock]
    rcases hres ⟨true, false⟩ ((vs 7).length + 1) with hres | ⟨hle, -⟩
    · rw [hres]
      rfl
    · omega
  exact ⟨h, s, _, _, hinit, hrun, hp, small_serves hC'.pmm hH pg (by rwa [caches_of_run hrun])⟩

/-- **The eighth block of 500 bytes stops the kernel** although pages are free. -/
theorem eighth_block_panics : ∃ h s fuel msg, mallocHeapInit (fun _ => 0) ⟨booted, fun _ => 0⟩ = .ok h ∧
    Run Step ⟨h, []⟩ (List.replicate 7 (.malloc 500)) s ∧ malloc s.heap fuel 500 = .error (.panic msg) ∧
    Found s.heap.machine 1 ∧ ¬ Available s.heap 500 := by
  obtain ⟨h, s, fuel, msg, hinit, hrun, hp, hfound⟩ := seven_blocks
  have hm : malloc s.heap fuel 500 = .error (.panic msg) := by
    rw [malloc_eq, hp]
    rfl
  exact ⟨h, s, fuel, msg, hinit, hrun, hm, hfound, fun hav => (hav _ _ hm).2 hfound⟩

/-- It is a clean failure. -/
theorem malloc_fails_iff_small : ∃ h s fuel, mallocHeapInit (fun _ => 0) ⟨booted, fun _ => 0⟩ = .ok h ∧
    Run Step ⟨h, []⟩ (List.replicate 7 (.malloc 500)) s ∧ NoMemory s.heap fuel 500 ∧
    FailsCleanly s.heap fuel 500 := by
  obtain ⟨h, s, fuel, msg, hinit, hrun, hp, -⟩ := seven_blocks
  have hno : NoMemory s.heap fuel 500 := Or.inr ⟨msg, hp⟩
  exact ⟨h, s, fuel, hinit, hrun, hno, (malloc_fails_iff hno).mpr (by norm_num)⟩

end FusionCore.Libk.MallocFail
