import FusionCore.Lib.Runs
import FusionCore.Libk.MallocSpec

/-! # Runs of the heap

A run starts after `malloc_heap_init` and makes calls of `malloc` and `free`; `live` records the pointers
returned, with the allocator the block was taken from. The invariant: the allocations of the physical
memory manager are apart, sixteen of them are the pages of the caches and of their slabs, the caches
with buffers of at least 16 bytes satisfy the invariant of the slab allocator, and the metadata of
every live block is as `malloc` wrote it.

`free` tells the allocators apart by the alignment of the block. The first buffer of a slab is
aligned like a page, so that `free` gives the page of the slab to the physical memory manager
(`free_first_buffer`). Every other block goes back to where it came from (`free_gives_back`), if the
sizes asked for have a cache with room for a bufctl, or pages that are found. -/

namespace FusionCore.Libk.MallocRun

open FusionCore.Lib.ByteMem FusionCore.Lib.Runs FusionCore.Mm
open FusionCore.Mm.Defs FusionCore.Mm.Phys FusionCore.Mm.PhysInit FusionCore.Mm.Pages
  FusionCore.Mm.PhysPages
open FusionCore.Mm.Slab FusionCore.Mm.SlabView FusionCore.Mm.SlabRep FusionCore.Mm.SlabOps
open FusionCore.Mm.SlabLife FusionCore.Libk.Malloc FusionCore.Libk.MallocInit FusionCore.Libk.MallocSpec
open FusionCore.Mm.PhysRun (Inv FirstFit initUsed_bounds)
open FusionCore.Mm.PhysSpec (smallMap smallMap_wellFormed smallMap_fits)

/-- The heap and the live blocks: the pointer `malloc` returned and the allocator it took the block
from. -/
structure HeapState where
  heap : Heap
  live : List (ℕ × Origin)

/-- A call. -/
inductive HeapOp
  | malloc (size : ℕ)
  | free (ptr : ℕ)

/-- The effect of a call. -/
def exec (fuel : ℕ) (s : HeapState) : HeapOp → Except Halt HeapState
  | .malloc size => (malloc s.heap fuel size).map fun r => ⟨r.2, (r.1, mallocRoute size) :: s.live⟩
  | .free ptr => (free s.heap fuel ptr).map fun h => ⟨h, s.live.filter (·.1 ≠ ptr)⟩

/-- The calls of a run: sizes are `size_t` values, and only live pointers are freed. -/
def Valid (s : HeapState) : HeapOp → Prop
  | .malloc size => size < 2 ^ 64
  | .free ptr => ∃ o, (ptr, o) ∈ s.live

/-- One call that returns. -/
def Step (s : HeapState) (o : HeapOp) (s' : HeapState) : Prop :=
  Valid s o ∧ ∃ fuel, exec fuel s o = .ok s'

/-- **The condition on a call.** A size has a cache whose buffers can hold a bufctl, or a positive
number of pages whose first fit is found; and a block of a cache is freed only when it is not the
first buffer of its page. -/
def Meets (s : HeapState) : HeapOp → Prop
  | .malloc size => 7 ≤ size ∧ ∀ n, mallocRoute size = .pages n → 1 ≤ n ∧ FirstFit s.heap.machine n ∧
      ∃ i < pageToBit s.heap.machine.pmm.hiPageTop, ScanClear s.heap.machine n i
  | .free ptr => ∀ k, (ptr, .slab k) ∈ s.live → ofUser ptr % 4096 ≠ 0

/-- **The block is given back to the allocator it was taken from**: to `slab_cache_free` on the same
cache, or to `pmm_free` with pages that back no slab of the heap's caches. -/
def GivenBack (h : Heap) (ptr : ℕ) : Origin → Prop
  | .slab k => ∀ fuel, free h fuel ptr =
      (slabCacheFree ⟨true, false⟩ (h.slabCaches k) (ofUser ptr) fuel h.machine).map fun s =>
        { h with machine := s }
  | .pages _ => ∃ n, (∀ fuel, free h fuel ptr =
      .ok { h with machine := pmmFree h.machine (ofUser ptr) n }) ∧
      ∀ k < 8, ∀ i < n, pageToBit (ofUser ptr) + i ≠
        pageToBit (load64 h.machine.mem (cacheHead (h.slabCaches k)))

/-! ### The invariant -/

/-- The pages that are not the clients': the caches, their slabs, and the pages `F` handed out before. -/
def reserved (F : Set ℕ) (h : Heap) (pg : ℕ → ℕ) : Set ℕ :=
  {p | p ∈ F ∨ ∃ k < 8, p = h.slabCaches k ∨ p = pg k}

/-- **The allocators**: `pg k` is the page of the slab of cache `k`, `vs k` and `L k` its slabs and
its live buffers, `pm` the live allocations of the physical memory manager, `m₀` the memory of the
pages `F`. -/
structure Core (mmap : List MmapEntry) (F : Set ℕ) (m₀ : Mem) (h : Heap) (pg : ℕ → ℕ) (vs : ℕ → List View)
    (L : ℕ → List ℕ) (pm : List (ℕ × ℕ)) : Prop where
  pmm : Inv mmap ⟨h.machine, pm⟩
  fixed : ∀ p ∈ reserved F h pg, (p, 1) ∈ pm
  others : ∀ k < 8, h.slabCaches k ∉ F ∧ pg k ∉ F
  kept : SamePages F m₀ h.machine.mem
  distinct : Distinct h.slabCaches pg 8
  head_eq : ∀ k < 8, load64 h.machine.mem (cacheHead (h.slabCaches k)) = header (pg k)
  inv : ∀ k < 8, 2 ≤ k → CacheInv h.machine.mem (classSize k) (h.slabCaches k) {pg k} (vs k) (L k)

/-- **A live block** and its metadata. -/
def Holds (F : Set ℕ) (h : Heap) (pg : ℕ → ℕ) (L : ℕ → List ℕ) (pm : List (ℕ × ℕ))
    (ptr : ℕ) : Origin → Prop
  | .slab k => ∃ b ∈ L k, ptr = toUser b ∧ load16 h.machine.mem b = k ∧ 2 ≤ k ∧ k < 8
  | .pages n => ∃ b, ptr = toUser b ∧ (b, n) ∈ pm ∧ b ∉ reserved F h pg ∧
      load16 h.machine.mem b = n % 65536

/-- The invariant of a run. -/
def HeapInv (mmap : List MmapEntry) (F : Set ℕ) (m₀ : Mem) (s : HeapState) : Prop :=
  ∃ pg vs L pm, Core mmap F m₀ s.heap pg vs L pm ∧ ∀ e ∈ s.live, Holds F s.heap pg L pm e.1 e.2

variable {mmap : List MmapEntry} {F : Set ℕ} {m₀ m' : Mem} {h : Heap} {s' : Machine Pmm} {pg : ℕ → ℕ}
  {vs : ℕ → List View} {L : ℕ → List ℕ} {pm pm' : List (ℕ × ℕ)} {k p a ptr : ℕ} {o : Origin}

theorem core_of_built {h₀ : Heap} {H : Set ℕ} (hB : Built (Handed mmap) h 8 pg H)
    (hK : Kept h₀ h 0 (fun _ => 0) pg F H) : ∃ pm, Core mmap F h₀.machine.mem h pg
      (fun k => [fresh (classSize k) (pg k)]) (fun _ => []) pm ∧ ∀ b, b ∈ pm ↔ b.2 = 1 ∧ b.1 ∈ H := by
  obtain ⟨pm, hI, hH⟩ := hB.good
  refine ⟨pm, ⟨hI, fun p hp => (hH _).mpr ⟨rfl, ?_⟩, fun k hk => hK.new k hk (Nat.zero_le _), hK.same,
    hB.distinct, hB.head_eq, hB.inv⟩, hH⟩
  rcases hp with hp | ⟨k, hk, rfl | rfl⟩
  · exact hK.subset hp
  · exact (hB.mem k hk).1
  · exact (hB.mem k hk).2

theorem ofUser_toUser {b : ℕ} (hb : b < 2 ^ 64) : ofUser (toUser b) = b := by
  unfold ofUser toUser heapStartAddr
  omega

theorem page_apart {q n b : ℕ} (hI : Inv mmap ⟨h.machine, pm⟩) (hq : (q, 1) ∈ pm) (hb : (b, n) ∈ pm)
    (hne : b ≠ q) (ha : a ∈ page q) : a < b ∨ b + n * 4096 ≤ a := by
  have := live_apart hI hq hb fun he => hne (congrArg Prod.fst he)
  unfold PhysRun.Apart at this
  rw [mem_page] at ha
  dsimp only at this
  omega

theorem cache_mem (hk : k < 8) : h.slabCaches k ∈ reserved F h pg := Or.inr ⟨k, hk, Or.inl rfl⟩

theorem slab_mem (hk : k < 8) : pg k ∈ reserved F h pg := Or.inr ⟨k, hk, Or.inr rfl⟩

/-! ### What an operation on pages keeps -/

/-- **The other allocations**: an operation that keeps the memory of the reserved pages, and their
allocations. -/
theorem Core.frame_pages (hC : Core mmap F m₀ h pg vs L pm) (hI : Inv mmap ⟨s', pm'⟩)
    (hfix : ∀ p ∈ reserved F h pg, (p, 1) ∈ pm')
    (hs : SamePages (reserved F h pg) h.machine.mem s'.mem) :
    Core mmap F m₀ { h with machine := s' } pg vs L pm' := by
  refine ⟨hI, hfix, hC.others, hC.kept.trans (fun p hp => Or.inl hp) hs, hC.distinct, fun k hk => ?_,
    fun k hk h2 => ?_⟩
  · exact (record_kept hs (cache_mem hk) le_rfl).trans (hC.head_eq k hk)
  · refine inv_samePages (hC.inv k hk h2) (hs.mono ?_)
    rintro p (rfl | rfl)
    · exact cache_mem hk
    · exact slab_mem hk

theorem Core.holds_pages (hC : Core mmap F m₀ h pg vs L pm) (hH : Holds F h pg L pm ptr o)
    (hs : SamePages (reserved F h pg) h.machine.mem s'.mem)
    (hb : ∀ b n, ptr = toUser b → (b, n) ∈ pm → o = .pages n → b ∉ reserved F h pg →
      (b, n) ∈ pm' ∧ load16 s'.mem b = load16 h.machine.mem b) :
    Holds F { h with machine := s' } pg L pm' ptr o := by
  cases o with
  | slab k =>
    obtain ⟨b, hbL, hptr, hm, h2, h8⟩ := hH
    refine ⟨b, hbL, hptr, ?_, h2, h8⟩
    have hI := hC.inv k h8 h2
    obtain ⟨h3, h4, -⟩ := hI.slot_place (hI.live_slot hbL)
    have hge := hI.size_ge
    rw [Set.mem_singleton_iff] at h3
    rw [← hm]
    refine load_congr fun x hx => hs (pg k) (slab_mem h8) ?_
    rw [Set.mem_Ico] at hx
    rw [mem_page]
    omega
  | pages n =>
    obtain ⟨b, hptr, hbm, hbr, hm⟩ := hH
    obtain ⟨h1, h2⟩ := hb b n hptr hbm rfl hbr
    exact ⟨b, hptr, h1, hbr, h2.trans hm⟩

/-! ### What an operation on a cache keeps -/

section Slab
variable {vs' : List View} {L' : List ℕ} (hC : Core mmap F m₀ h pg vs L pm) (hk : k < 8) (h2 : 2 ≤ k)
  (hslot : IsSlot (classSize k) {pg k} a)
  (hd : DiffersOn (touch (classSize k) (h.slabCaches k) {pg k} {a}) h.machine.mem m')
include hC hk h2 hslot hd

theorem Core.same_off {n b : ℕ} (hb : (b, n) ∈ pm) (hbc : b ≠ h.slabCaches k) (hbp : b ≠ pg k) :
    Set.EqOn m' h.machine.mem (Set.Ico b (b + n * 4096)) := by
  intro x hx
  refine hd x fun ht => ?_
  rw [Set.mem_Ico] at hx
  have hX : ∀ y ∈ ({a} : Set ℕ), IsSlot (classSize k) {pg k} y := by
    rintro y rfl
    exact hslot
  obtain ⟨p, rfl | rfl, hp⟩ := touch_subset (hC.inv k hk h2) subset_rfl hX ht
  · have := page_apart hC.pmm (hC.fixed _ (cache_mem hk)) hb hbc hp
    omega
  · have := page_apart hC.pmm (hC.fixed _ (slab_mem hk)) hb hbp hp
    omega

theorem Core.head_off : load64 m' (cacheHead (h.slabCaches k)) =
    load64 h.machine.mem (cacheHead (h.slabCaches k)) := by
  have hI := hC.inv k hk h2
  have hc := hI.cache_ok
  have hp := hI.aligned (pg k) rfl
  have hne : pg k ≠ h.slabCaches k := fun he => hI.cache_new he.symm
  obtain ⟨h3, h4, -⟩ := hI.slot_place hslot
  rw [Set.mem_singleton_iff] at h3
  refine hd.load64 ?_
  unfold cacheHead
  rintro x (ht | ⟨q, rfl, ht⟩ | ⟨q, rfl, ht⟩) <;> omega

variable (hw : WellFormed mmap) (hf : Fits mmap)
include hw hf

/-- **The other caches and pages.** -/
theorem Core.frame_slab (hI : CacheInv m' (classSize k) (h.slabCaches k) {pg k} vs' L') :
    Core mmap F m₀ { h with machine := { h.machine with mem := m' } } pg (Function.update vs k vs')
      (Function.update L k L') pm := by
  have hpage : ∀ p ∈ reserved F h pg, p ≠ h.slabCaches k → p ≠ pg k →
      Set.EqOn m' h.machine.mem (page p) := by
    intro p hp h3 h4 x hx
    exact hC.same_off hk h2 hslot hd (hC.fixed p hp) h3 h4 (by rw [Nat.one_mul]; exact hx)
  have hne : ∀ j < 8, j ≠ k → (h.slabCaches j ≠ h.slabCaches k ∧ h.slabCaches j ≠ pg k) ∧
      pg j ≠ h.slabCaches k ∧ pg j ≠ pg k := fun j hj hjk =>
    ⟨⟨fun he => hjk (hC.distinct.cache_inj j hj k hk he), hC.distinct.cache_ne j hj k hk⟩,
      fun he => hC.distinct.cache_ne k hk j hj he.symm, fun he => hjk (hC.distinct.page_inj j hj k hk he)⟩
  refine ⟨inv_write hf hC.pmm fun x hx => hd x fun ht => ?_, hC.fixed, hC.others, fun p hp =>
    ?_, hC.distinct, fun j hj => ?_, fun j hj hj2 => ?_⟩
  · have hX : ∀ y ∈ ({a} : Set ℕ), IsSlot (classSize k) {pg k} y := by
      rintro y rfl
      exact hslot
    obtain ⟨p, hp, hxp⟩ := touch_subset (hC.inv k hk h2) subset_rfl hX ht
    have hlive : (p, 1) ∈ pm := by
      rcases hp with rfl | rfl
      · exact hC.fixed _ (cache_mem hk)
      · exact hC.fixed _ (slab_mem hk)
    exact not_mem_bitmap_of_live hw hf hC.pmm.safe hlive (by rw [Nat.one_mul]; exact hxp) hx
  · have h3 : p ≠ h.slabCaches k := fun he => (hC.others k hk).1 (he ▸ hp)
    have h4 : p ≠ pg k := fun he => (hC.others k hk).2 (he ▸ hp)
    exact (hpage p (Or.inl hp) h3 h4).trans (hC.kept p hp)
  · by_cases hjk : j = k
    · rw [hjk]
      exact (hC.head_off hk h2 hslot hd).trans (hC.head_eq k hk)
    · obtain ⟨⟨h3, h4⟩, -⟩ := hne j hj hjk
      refine (load64_congr fun x hx => hpage _ (cache_mem hj) h3 h4 ?_).trans (hC.head_eq j hj)
      simp only [cacheHead, Set.mem_Ico, mem_page] at hx ⊢
      omega
  · by_cases hjk : j = k
    · subst hjk
      simpa only [Function.update_self] using hI
    · simp only [Function.update_of_ne hjk]
      obtain ⟨⟨h3, h4⟩, h5, h6⟩ := hne j hj hjk
      refine inv_samePages (hC.inv j hj hj2) ?_
      rintro p (rfl | rfl)
      · exact hpage _ (cache_mem hj) h3 h4
      · exact hpage _ (slab_mem hj) h5 h6

omit hw hf in
theorem Core.holds_slab (hH : Holds F h pg L pm ptr o)
    (hb : ∀ b ∈ L k, ptr = toUser b → o = .slab k → b ≠ a ∧ b ∈ L') :
    Holds F { h with machine := { h.machine with mem := m' } } pg (Function.update L k L') pm ptr o := by
  cases o with
  | slab j =>
    obtain ⟨b, hbL, hptr, hm, hj2, hj8⟩ := hH
    have hI := hC.inv j hj8 hj2
    have hbs := hI.live_slot hbL
    obtain ⟨h3, h4, -⟩ := hI.slot_place hbs
    have hge := hI.size_ge
    rw [Set.mem_singleton_iff] at h3
    by_cases hjk : j = k
    · subst hjk
      obtain ⟨hne, hbL'⟩ := hb b hbL hptr rfl
      refine ⟨b, by rwa [Function.update_self], hptr, ?_, hj2, hj8⟩
      rw [← hm]
      have hc := hI.cache_ok
      have hcp : pg j ≠ h.slabCaches j := fun he => hI.cache_new he.symm
      have hap := hslot.apart hI.aligned hbs hne.symm
      refine hd.load16 ?_
      rintro x (ht | ⟨q, rfl, ht⟩ | ⟨q, rfl, ht⟩) <;> omega
    · refine ⟨b, by rwa [Function.update_of_ne hjk], hptr, ?_, hj2, hj8⟩
      rw [← hm]
      have h5 : pg j ≠ h.slabCaches k := fun he => hC.distinct.cache_ne k hk j hj8 he.symm
      have h6 : pg j ≠ pg k := fun he => hjk (hC.distinct.page_inj j hj8 k hk he)
      refine load_congr fun x hx => hC.same_off hk h2 hslot hd (hC.fixed _ (slab_mem hj8)) h5 h6 ?_
      rw [Set.mem_Ico] at hx ⊢
      omega
  | pages n =>
    obtain ⟨b, hptr, hbm, hbr, hm⟩ := hH
    refine ⟨b, hptr, hbm, hbr, ?_⟩
    rw [← hm]
    have h3 : b ≠ h.slabCaches k := fun he => hbr (he ▸ cache_mem hk)
    have h4 : b ≠ pg k := fun he => hbr (he ▸ slab_mem hk)
    have hpos : 1 ≤ n := hC.pmm.pos _ hbm
    refine load_congr fun x hx => hC.same_off hk h2 hslot hd hbm h3 h4 ?_
    rw [Set.mem_Ico] at hx ⊢
    omega

end Slab

/-! ### The calls -/

section Calls
variable {fuel b n : ℕ} {s₁ : Machine Pmm} (hC : Core mmap F m₀ h pg vs L pm) (hw : WellFormed mmap)
  (hf : Fits mmap)
include hC hw hf

/-- **A block from a cache**, with its metadata written. -/
theorem Core.malloc_slab (hk : k < 8) (h2 : 2 ≤ k) (hok : takeBlock h fuel (.slab k) = .ok (b, s₁)) :
    ∃ v, takeFirst (vs k) = some (b, v) ∧ IsSlot (classSize k) {pg k} b ∧
      Core mmap F m₀ { h with machine := { s₁ with mem := store16 s₁.mem b k } } pg
        (Function.update vs k v)
        (Function.update L k (b :: L k)) pm ∧
      (∀ ptr o, Holds F h pg L pm ptr o →
        Holds F { h with machine := { s₁ with mem := store16 s₁.mem b k } } pg
        (Function.update L k (b :: L k)) pm ptr o) ∧
      Holds F { h with machine := { s₁ with mem := store16 s₁.mem b k } } pg
        (Function.update L k (b :: L k)) pm (toUser b) (.slab k) := by
  have hI := hC.inv k hk h2
  have hge := hI.size_ge
  cases ht : takeFirst (vs k) with
  | none =>
    -- `SLAB_PANIC` without `SLAB_AUTO_GROW`
    obtain ⟨m', -, -, hres⟩ := alloc_none pmmSource hI ht
    cases fuel with
    | zero => cases hok
    | succ fuel =>
      rw [takeBlock] at hok
      rcases hres ⟨true, false⟩ fuel with hr | ⟨-, hr⟩ <;> rw [hr] at hok <;> cases hok
  | some r =>
    have ht : takeFirst (vs k) = some (r.1, r.2) := ht
    obtain ⟨m', hI', hd, hres⟩ := alloc_take pmmSource hI ht
    have hok' : r.1 = b ∧ { h.machine with mem := m' } = s₁ := by
      rw [takeBlock] at hok
      rcases hres ⟨true, false⟩ fuel with hr | ⟨-, hr⟩
      · rw [hr] at hok
        exact Prod.mk.inj (Except.ok.inj hok)
      · rw [hr] at hok
        cases hok
    obtain ⟨rfl, rfl⟩ := hok'
    have hslot := hI'.live_slot (List.mem_cons_self ..)
    have hsub : Set.Ico r.1 (r.1 + 2) ⊆ touch (classSize k) (h.slabCaches k) ∅ {x | x ∈ r.1 :: L k} := by
      intro x hx
      rw [Set.mem_Ico] at hx
      exact Or.inr (Or.inr ⟨r.1, List.mem_cons_self .., hx.1, by omega⟩)
    have hI'' := hI'.write (differsOn_store16 (v := k) (DiffersOn.refl _ _) hsub)
    have hd' : DiffersOn (touch (classSize k) (h.slabCaches k) {pg k} {r.1}) h.machine.mem
        (store16 m' r.1 k) := by
      refine differsOn_store16 (hd.mono ?_) fun x hx => ?_
      · rintro x (hx | hx | ⟨y, hy, -⟩)
        · exact Or.inl hx
        · exact Or.inr (Or.inl hx)
        · exact absurd hy (Set.notMem_empty _)
      · rw [Set.mem_Ico] at hx
        exact Or.inr (Or.inr ⟨r.1, rfl, hx.1, by omega⟩)
    have hnew : r.1 ∉ L k :=
      (List.nodup_cons.mp (List.nodup_append.mp hI'.apart.nodup).2.1).1
    refine ⟨r.2, rfl, hslot, hC.frame_slab hk h2 hslot hd' hw hf hI'', fun ptr o hH => ?_, ?_⟩
    · exact hC.holds_slab hk h2 hslot hd' hH fun b hb _ _ =>
        ⟨fun he => hnew (he ▸ hb), List.mem_cons_of_mem _ hb⟩
    · refine ⟨r.1, by rw [Function.update_self]; exact List.mem_cons_self .., rfl, ?_, h2, hk⟩
      exact (load16_store16 _ _ _).trans (Nat.mod_eq_of_lt (by omega))

/-- **A block given back to its cache.** -/
theorem Core.free_slab (hk : k < 8) (h2 : 2 ≤ k) (hb : b ∈ L k)
    (hok : giveBlock h fuel b (.slab k) = .ok s₁) :
    ∃ vs', Core mmap F m₀ { h with machine := s₁ } pg vs' (Function.update L k ((L k).erase b)) pm ∧
      ∀ ptr o, Holds F h pg L pm ptr o → ptr ≠ toUser b →
        Holds F { h with machine := s₁ } pg (Function.update L k ((L k).erase b)) pm ptr o := by
  have hI := hC.inv k hk h2
  obtain ⟨m', hI', hd, hres⟩ := free_put hI hb
  have hok' : { h.machine with mem := m' } = s₁ := by
    rw [giveBlock] at hok
    rcases hres ⟨true, false⟩ fuel with hr | ⟨-, hr⟩
    · rw [hr] at hok
      split_ifs at hok
      exact Except.ok.inj hok
    · rw [hr] at hok
      cases hok
  subst hok'
  refine ⟨_, hC.frame_slab hk h2 (hI.live_slot hb) hd hw hf hI', fun ptr o hH hne => ?_⟩
  refine hC.holds_slab hk h2 (hI.live_slot hb) hd hH fun c hc hptr _ => ?_
  have hcb : c ≠ b := fun he => hne (he ▸ hptr)
  exact ⟨hcb, (List.mem_erase_of_ne hcb).mpr hc⟩

omit hC in
/-- The pages of a live allocation other than `(b, n)` when the memory changes in its range and in
the bitmap only. -/
theorem same_live {q l : ℕ} {m : Mem} (hI : Inv mmap ⟨s₁, pm'⟩) (hb : (b, n) ∈ pm') (hq : (q, l) ∈ pm')
    (hne : (q, l) ≠ (b, n)) (hm : ∀ x, x ∉ bitmapBytes mmap → x ∉ Set.Ico b (b + n * 4096) → m' x = m x) :
    Set.EqOn m' m (Set.Ico q (q + l * 4096)) := by
  intro x hx
  refine hm x (not_mem_bitmap_of_live hw hf hI.safe hq hx) fun hc => ?_
  have := live_apart hI hb hq hne
  unfold PhysRun.Apart at this
  rw [Set.mem_Ico] at hx hc
  dsimp only at this
  omega

/-- **A block of pages**, with its metadata written. -/
theorem Core.malloc_pages (hn : 1 ≤ n) (hfit : FirstFit h.machine n)
    (hok : pmmAllocz h.machine n = (b, s₁)) (hb0 : b ≠ 0) :
    Core mmap F m₀ { h with machine := { s₁ with mem := store16 s₁.mem b n } } pg vs L ((b, n) :: pm) ∧
      (∀ ptr o, Holds F h pg L pm ptr o →
        Holds F { h with machine := { s₁ with mem := store16 s₁.mem b n } } pg
        L ((b, n) :: pm) ptr o) ∧
      Holds F { h with machine := { s₁ with mem := store16 s₁.mem b n } } pg L ((b, n) :: pm) (toUser b)
        (.pages n) := by
  obtain ⟨hI, -, hfr⟩ := pmmAllocz_firstFit hw hf hC.pmm hn hfit (by rw [hok]; exact hb0)
  rw [hok] at hI hfr
  dsimp only at hI hfr
  have hself : (b, n) ∈ (b, n) :: pm := List.mem_cons_self ..
  have hnew : (b, n) ∉ pm := (List.nodup_cons.mp (live_nodup hI)).1
  have hmeta : ∀ x, x ∉ Set.Ico b (b + n * 4096) → store16 s₁.mem b n x = s₁.mem x := fun x hx =>
    store_of_not_mem fun hc => hx ⟨hc.1, lt_of_lt_of_le hc.2 (by omega)⟩
  have hI' : Inv mmap ⟨{ s₁ with mem := store16 s₁.mem b n }, (b, n) :: pm⟩ :=
    inv_write hf hI fun x hx => hmeta x fun hc => not_mem_bitmap_of_live hw hf hI.safe hself hc hx
  have hlive : ∀ q l, (q, l) ∈ pm →
      Set.EqOn (store16 s₁.mem b n) h.machine.mem (Set.Ico q (q + l * 4096)) :=
    fun q l hq => same_live hw hf hI hself (List.mem_cons_of_mem _ hq) (fun he => hnew (he ▸ hq))
      fun x h1 h2 => (hmeta x h2).trans (hfr x h1 h2)
  have hs : SamePages (reserved F h pg) h.machine.mem (store16 s₁.mem b n) := fun p hp x hx =>
    hlive p 1 (hC.fixed p hp) (by rw [Nat.one_mul]; exact hx)
  refine ⟨hC.frame_pages hI' (fun p hp => List.mem_cons_of_mem _ (hC.fixed p hp)) hs,
    fun ptr o hH => ?_, ?_⟩
  · refine hC.holds_pages hH hs fun c l _ hc _ _ => ⟨List.mem_cons_of_mem _ hc, ?_⟩
    have hpos : 1 ≤ l := hC.pmm.pos _ hc
    exact load_congr fun x hx => hlive c l hc ⟨hx.1, lt_of_lt_of_le hx.2 (by omega)⟩
  · refine ⟨b, rfl, hself, fun hb => ?_, load16_store16 _ _ _⟩
    -- a reserved page is live already
    have hap := (List.pairwise_cons.mp hI.safe.apart).1 _ (hC.fixed b hb)
    unfold PhysRun.Apart at hap
    dsimp only at hap
    omega

/-- **A block of pages given back**, perhaps with a count that is too small. -/
theorem Core.free_pages {l : ℕ} (hb : (b, n) ∈ pm) (hbr : b ∉ reserved F h pg) (hl : l ≤ n) :
    ∃ pm', Core mmap F m₀ { h with machine := pmmFree h.machine b l } pg vs L pm' ∧
      ∀ ptr o, Holds F h pg L pm ptr o → ptr ≠ toUser b →
        Holds F { h with machine := pmmFree h.machine b l } pg L pm' ptr o := by
  obtain ⟨pm', hI, hmem, hfr⟩ := inv_free_part hw hf hC.pmm hb hl
  have hlive : ∀ q j, (q, j) ∈ pm → Set.EqOn (pmmFree h.machine b l).mem h.machine.mem
      (Set.Ico q (q + j * 4096)) := fun q j hq x hx =>
    hfr x (not_mem_bitmap_of_live hw hf hC.pmm.safe hq hx)
  have hs : SamePages (reserved F h pg) h.machine.mem (pmmFree h.machine b l).mem := fun p hp x hx =>
    hlive p 1 (hC.fixed p hp) (by rw [Nat.one_mul]; exact hx)
  refine ⟨pm', hC.frame_pages hI (fun p hp => hmem _ (hC.fixed p hp) fun he => hbr ?_) hs,
    fun ptr o hH hne => ?_⟩
  · rwa [← (Prod.mk.inj he).1]
  · refine hC.holds_pages hH hs fun c j hptr hc _ _ => ⟨hmem _ hc fun he => ?_, ?_⟩
    · exact hne (by rw [hptr, (Prod.mk.inj he).1])
    · have hpos : 1 ≤ j := hC.pmm.pos _ hc
      exact load_congr fun x hx => hlive c j hc ⟨hx.1, lt_of_lt_of_le hx.2 (by omega)⟩

end Calls

/-! ### Runs -/

theorem route_slab {size : ℕ} (h7 : 7 ≤ size) (hr : mallocRoute size = .slab k) : k < 8 ∧ 2 ≤ k := by
  unfold mallocRoute at hr
  split_ifs at hr
  rw [← Origin.slab.inj hr]
  refine ⟨getSlabCacheIndex_lt _, ?_⟩
  unfold getSlabCacheIndex
  split_ifs <;> omega

theorem toUser_eq {b : ℕ} (hb : b < 2 ^ 44) : toUser b = b + 2 + heapStartAddr :=
  Nat.mod_eq_of_lt (by unfold heapStartAddr; omega)

theorem toUser_ne_zero {b : ℕ} (hb : b < 2 ^ 44) : toUser b ≠ 0 := by
  rw [toUser_eq hb]
  omega

/-- What `free` reads of the allocator: page counts have 16 bits. -/
def stored : Origin → Origin
  | .slab k => .slab k
  | .pages n => .pages (n % 65536)

section Free
variable {b : ℕ} (hC : Core mmap F m₀ h pg vs L pm) (hw : WellFormed mmap) (hf : Fits mmap)
include hC hw hf

theorem Core.pages_block {n : ℕ} (hb : (b, n) ∈ pm) : b < 2 ^ 43 ∧ b % 4096 = 0 := by
  have hpos : 0 < n := hC.pmm.pos _ hb
  have hlt := (hC.pmm.safe.marked _ hb 0 hpos).2.1
  have hal := hC.pmm.safe.aligned _ hb
  have htop := (initUsed_bounds hw hf).2.2
  dsimp only at hlt hal
  exact ⟨by omega, hal⟩

theorem Core.slab_block (hk : k < 8) (h2 : 2 ≤ k) (hb : b ∈ L k) : b < 2 ^ 44 := by
  have hI := hC.inv k hk h2
  obtain ⟨h3, -, -⟩ := hI.slot_place (hI.live_slot hb)
  have h4 := (hC.pages_block hw hf (hC.fixed _ (slab_mem hk))).1
  rw [Set.mem_singleton_iff] at h3
  omega

/-- **`free` finds the allocator** of a live block, unless it is the first buffer of a slab. -/
theorem Core.route (hH : Holds F h pg L pm ptr o) (hm : ∀ k, o = .slab k → ofUser ptr % 4096 ≠ 0) :
    ptr ≠ 0 ∧ freeRoute h.machine.mem (ofUser ptr) = stored o := by
  unfold freeRoute
  cases o with
  | slab k =>
    obtain ⟨b, hb, hptr, hmeta, h2, hk⟩ := hH
    have hlt := hC.slab_block hw hf hk h2 hb
    refine ⟨hptr ▸ toUser_ne_zero hlt, ?_⟩
    rw [if_pos (hm k rfl), hptr, ofUser_toUser (by omega), hmeta, stored]
  | pages n =>
    obtain ⟨b, hptr, hb, -, hmeta⟩ := hH
    obtain ⟨hlt, hal⟩ := hC.pages_block hw hf hb
    refine ⟨hptr ▸ toUser_ne_zero (by omega), ?_⟩
    rw [hptr, ofUser_toUser (by omega), if_neg (by omega), hmeta, stored]

theorem Core.givenBack (hH : Holds F h pg L pm ptr o) (hm : ∀ k, o = .slab k → ofUser ptr % 4096 ≠ 0) :
    GivenBack h ptr o := by
  obtain ⟨h0, hroute⟩ := hC.route hw hf hH hm
  cases o with
  | slab k =>
    intro fuel
    rw [free_eq h fuel h0, hroute]
    rfl
  | pages n =>
    refine ⟨n % 65536, fun fuel => ?_, fun k hk i hi => ?_⟩
    · rw [free_eq h fuel h0, hroute]
      rfl
    · obtain ⟨b, hptr, hb, hbr, -⟩ := hH
      obtain ⟨hlt, hal⟩ := hC.pages_block hw hf hb
      rw [hptr, ofUser_toUser (by omega), hC.head_eq k hk]
      have hap := live_apart hC.pmm (hC.fixed _ (slab_mem hk)) hb fun he => hbr (by
        rw [(Prod.mk.inj he).1]
        exact slab_mem hk)
      have hpg := (hC.pages_block hw hf (hC.fixed _ (slab_mem hk))).2
      have hle := Nat.mod_le n 65536
      unfold PhysRun.Apart at hap
      unfold pageToBit header
      dsimp only at hap
      omega

end Free

section Step
variable {s t : HeapState} (hw : WellFormed mmap) (hf : Fits mmap) (hI : HeapInv mmap F m₀ s)
include hw hf hI

/-- **A call of `malloc`** keeps the invariant. -/
theorem heapInv_malloc {fuel size : ℕ} (hok : exec fuel s (.malloc size) = .ok t)
    (hm : Meets s (.malloc size)) : HeapInv mmap F m₀ t := by
  obtain ⟨pg, vs, L, pm, hC, hlive⟩ := hI
  obtain ⟨r, hr, rfl⟩ := map_eq_ok hok
  rw [malloc_eq] at hr
  obtain ⟨⟨b, s₁⟩, hb, rfl⟩ := map_eq_ok hr
  obtain ⟨h7, hpages⟩ := hm
  cases ho : mallocRoute size with
  | slab k =>
    rw [ho] at hb
    obtain ⟨hk, h2⟩ := route_slab h7 ho
    obtain ⟨v, -, -, hC', hold, hnew⟩ := hC.malloc_slab hw hf hk h2 hb
    refine ⟨pg, _, _, pm, hC', fun e he => ?_⟩
    rcases List.mem_cons.mp he with rfl | he
    · exact hnew
    · exact hold _ _ (hlive e he)
  | pages n =>
    rw [ho] at hb
    obtain ⟨hn, hfit, i, hi, hc⟩ := hpages n ho
    have hb := Except.ok.inj hb
    rw [hC.pmm.hi] at hi
    obtain ⟨j, hj, -, hjb, -⟩ := pmmAllocz_found hw hf hC.pmm hn hi hc
    rw [hb] at hjb
    dsimp only at hjb
    obtain ⟨hC', hold, hnew⟩ := hC.malloc_pages hw hf hn hfit hb (by omega)
    refine ⟨pg, vs, L, _, hC', fun e he => ?_⟩
    rcases List.mem_cons.mp he with rfl | he
    · exact hnew
    · exact hold _ _ (hlive e he)

/-- **A call of `free`** keeps the invariant. -/
theorem heapInv_free {fuel ptr : ℕ} (hv : Valid s (.free ptr)) (hok : exec fuel s (.free ptr) = .ok t)
    (hm : Meets s (.free ptr)) : HeapInv mmap F m₀ t := by
  obtain ⟨pg, vs, L, pm, hC, hlive⟩ := hI
  obtain ⟨o, ho⟩ := hv
  obtain ⟨h, hh, rfl⟩ := map_eq_ok hok
  have hH := hlive _ ho
  obtain ⟨h0, hroute⟩ := hC.route hw hf hH fun k hk => hm k (hk ▸ ho)
  rw [free_eq _ _ h0, hroute] at hh
  obtain ⟨s₁, hg, rfl⟩ := map_eq_ok hh
  have hrest : ∀ e ∈ s.live.filter (·.1 ≠ ptr), e ∈ s.live ∧ e.1 ≠ ptr := fun e he => by
    simpa using he
  cases o with
  | slab k =>
    obtain ⟨b, hb, hptr, -, h2, hk⟩ := hH
    dsimp only at hptr
    have hlt := hC.slab_block hw hf hk h2 hb
    rw [hptr, ofUser_toUser (by omega)] at hg
    obtain ⟨vs', hC', hold⟩ := hC.free_slab hw hf hk h2 hb hg
    refine ⟨pg, vs', _, pm, hC', fun e he => ?_⟩
    obtain ⟨he, hne⟩ := hrest e he
    exact hold _ _ (hlive e he) (hptr ▸ hne)
  | pages n =>
    obtain ⟨b, hptr, hb, hbr, -⟩ := hH
    dsimp only at hptr
    have hlt := (hC.pages_block hw hf hb).1
    rw [hptr, ofUser_toUser (by omega)] at hg
    obtain rfl := Except.ok.inj hg
    obtain ⟨pm', hC', hold⟩ := hC.free_pages hw hf hb hbr (Nat.mod_le n 65536)
    refine ⟨pg, vs, L, pm', hC', fun e he => ?_⟩
    obtain ⟨he, hne⟩ := hrest e he
    exact hold _ _ (hlive e he) (hptr ▸ hne)

/-- **One call.** -/
theorem heapInv_step {o : HeapOp} (hs : Step s o t) (hm : Meets s o) : HeapInv mmap F m₀ t := by
  obtain ⟨hv, fuel, hok⟩ := hs
  cases o with
  | malloc size => exact heapInv_malloc hw hf hI hok hm
  | free ptr => exact heapInv_free hw hf hI hv hok hm

end Step

/-! ### Every block goes back to where it came from -/

theorem heapInv_of_run {H : Set ℕ} {names : ℕ → ℕ} {h₀ : Heap} {ops : List HeapOp} {s : HeapState}
    (hw : WellFormed mmap) (hf : Fits mmap) (hb : homeBase mmap ≠ 0) (hG : Handed mmap h₀.machine H)
    (hinit : mallocHeapInit names h₀ = .ok h)
    (hrun : Run (fun s o t => Step s o t ∧ Meets s o) ⟨h, []⟩ ops s) :
    HeapInv mmap H h₀.machine.mem s := by
  obtain ⟨pg, H', hB, hK, -⟩ := built_of_init (pmmSource_lawful hw hf hb) hG hinit
  obtain ⟨pm, hC, -⟩ := core_of_built hB hK
  exact hrun.invariant ⟨pg, _, _, pm, hC, by simp⟩ fun s₁ o s₂ hI hs => heapInv_step hw hf hI hs.1 hs.2

/-- **Every block goes back to where it came from**, in every state of a run that meets the condition. -/
theorem free_gives_back {H : Set ℕ} {names : ℕ → ℕ} {h₀ : Heap} {ops : List HeapOp} {s : HeapState}
    (hw : WellFormed mmap) (hf : Fits mmap) (hb : homeBase mmap ≠ 0) (hG : Handed mmap h₀.machine H)
    (hinit : mallocHeapInit names h₀ = .ok h)
    (hrun : Run (fun s o t => Step s o t ∧ Meets s o) ⟨h, []⟩ ops s) (hlive : (ptr, o) ∈ s.live)
    (hm : Meets s (.free ptr)) : GivenBack s.heap ptr o := by
  obtain ⟨pg, vs, L, pm, hC, hH⟩ := heapInv_of_run hw hf hb hG hinit hrun
  exact hC.givenBack hw hf (hH _ hlive) fun k hk => hm k (hk ▸ hlive)

/-! ### Two blocks of 100 bytes -/

theorem Core.malloc_step {size b : ℕ} {v : List View} (live : List (ℕ × Origin))
    (hC : Core mmap F m₀ h pg vs L pm) (hw : WellFormed mmap) (hf : Fits mmap)
    (hr : mallocRoute size = .slab k) (h7 : 7 ≤ size) (hsz : size < 2 ^ 64)
    (ht : takeFirst (vs k) = some (b, v)) :
    ∃ h', (Step ⟨h, live⟩ (.malloc size) ⟨h', (toUser b, .slab k) :: live⟩ ∧
        Meets ⟨h, live⟩ (.malloc size)) ∧
      h'.slabCaches = h.slabCaches ∧
      Core mmap F m₀ h' pg (Function.update vs k v) (Function.update L k (b :: L k)) pm ∧
      Holds F h' pg (Function.update L k (b :: L k)) pm (toUser b) (.slab k) := by
  obtain ⟨hk, h2⟩ := route_slab h7 hr
  obtain ⟨m', -, -, hres⟩ := alloc_take pmmSource (hC.inv k hk h2) ht
  have hok : takeBlock h ((vs k).length + 1) (.slab k) = .ok (b, { h.machine with mem := m' }) := by
    rcases hres ⟨true, false⟩ ((vs k).length + 1) with hr | ⟨hle, -⟩
    · exact hr
    · omega
  obtain ⟨v', ht', -, hC', -, hnew⟩ := hC.malloc_slab hw hf hk h2 hok
  rw [ht] at ht'
  obtain rfl := (Prod.mk.inj (Option.some.inj ht')).2
  refine ⟨_, ⟨⟨hsz, (vs k).length + 1, ?_⟩, h7, fun n hn => ?_⟩, ?_, hC', hnew⟩
  · rw [exec, malloc_eq, hr, hok]
    rfl
  · rw [hr] at hn
    cases hn
  · rfl

theorem takeFirst_fresh (p : ℕ) : ∃ l, takeFirst
    [fresh (classSize 5) p] = some (p, [⟨p, (p + 128) :: l⟩]) := by
  obtain ⟨c, hc⟩ : ∃ c, cap 128 = c + 2 := ⟨29, by decide⟩
  rw [show classSize 5 = 128 from rfl]
  refine ⟨(List.range c).map fun j => slot 128 p (j + 2), ?_⟩
  simp [takeFirst, fresh, hc, List.range_succ_eq_map, slot, Function.comp_def]

theorem small_blocks : ∃ h h₁ h₂ pg vs L pm, mallocHeapInit (fun _ => 0) ⟨booted, fun _ => 0⟩ = .ok h ∧
    (Step ⟨h, []⟩ (.malloc 100) ⟨h₁, [(toUser (pg 5), .slab 5)]⟩ ∧ Meets ⟨h, []⟩ (.malloc 100)) ∧
    (Step ⟨h₁, [(toUser (pg 5), .slab 5)]⟩ (.malloc 100)
      ⟨h₂, [(toUser (pg 5 + 128), .slab 5), (toUser (pg 5), .slab 5)]⟩ ∧
        Meets ⟨h₁, [(toUser (pg 5), .slab 5)]⟩ (.malloc 100)) ∧
    Core smallMap ∅ booted.mem h₁ pg vs L pm ∧ Holds ∅ h₁ pg L pm (toUser (pg 5)) (.slab 5) := by
  obtain ⟨h, pg, H, hinit, hB, hK⟩ := small_heap
  obtain ⟨pm, hC, -⟩ := core_of_built hB hK
  obtain ⟨l, hl⟩ := takeFirst_fresh (pg 5)
  have hr : mallocRoute 100 = .slab 5 := by decide
  obtain ⟨h₁, hs₁, -, hC₁, hH₁⟩ := hC.malloc_step [] smallMap_wellFormed smallMap_fits hr (by norm_num)
    (by norm_num) hl
  obtain ⟨h₂, hs₂, -⟩ := hC₁.malloc_step [(toUser (pg 5), .slab 5)] smallMap_wellFormed smallMap_fits hr
    (by norm_num) (by norm_num) (v := [⟨pg 5, l⟩]) (b := pg 5 + 128) (by simp [takeFirst])
  exact ⟨h, h₁, h₂, pg, _, _, pm, hinit, hs₁, hs₂, hC₁, hH₁⟩

/-- The second block of 100 bytes goes back to its cache. -/
theorem free_gives_back_small : ∃ h s ptr, mallocHeapInit (fun _ => 0) ⟨booted, fun _ => 0⟩ = .ok h ∧
    Run (fun s o t => Step s o t ∧ Meets s o) ⟨h, []⟩ [.malloc 100, .malloc 100] s ∧
      (ptr, .slab 5) ∈ s.live ∧ GivenBack s.heap ptr (.slab 5) := by
  obtain ⟨h, h₁, h₂, pg, vs, L, pm, hinit, hs₁, hs₂, hC₁, -⟩ := small_blocks
  have hrun : Run (fun s o t => Step s o t ∧ Meets s o) ⟨h, []⟩ [.malloc 100, .malloc 100] _ :=
    Run.snoc (Run.snoc .nil hs₁) hs₂
  have hpg := hC₁.pages_block smallMap_wellFormed smallMap_fits
    (hC₁.fixed _ (slab_mem (k := 5) (by norm_num)))
  refine ⟨h, _, toUser (pg 5 + 128), hinit, hrun, List.mem_cons_self .., ?_⟩
  refine free_gives_back smallMap_wellFormed smallMap_fits (by decide) handed_booted hinit hrun
    (List.mem_cons_self ..) fun k _ => ?_
  rw [ofUser_toUser (by omega)]
  omega

/-- **The page of a slab is given to the physical memory manager** when the first buffer is freed:
five pages from there, since the index of the cache is taken for a page count. -/
theorem free_first_buffer : ∃ h s ptr, mallocHeapInit (fun _ => 0) ⟨booted, fun _ => 0⟩ = .ok h ∧
    Run Step ⟨h, []⟩ [.malloc 100] s ∧ (ptr, .slab 5) ∈ s.live ∧
      (∀ fuel, free s.heap fuel ptr =
        .ok { s.heap with machine := pmmFree s.heap.machine (ofUser ptr) 5 }) ∧
      pageToBit (ofUser ptr) = pageToBit (load64 s.heap.machine.mem (cacheHead (s.heap.slabCaches 5))) ∧
      ¬ GivenBack s.heap ptr (.slab 5) := by
  obtain ⟨h, h₁, h₂, pg, vs, L, pm, hinit, hs₁, -, hC, hH⟩ := small_blocks
  have hw := smallMap_wellFormed
  have hf := smallMap_fits
  have hpg := hC.pages_block hw hf (hC.fixed _ (slab_mem (k := 5) (by norm_num)))
  have huser : ofUser (toUser (pg 5)) = pg 5 := ofUser_toUser (by omega)
  obtain ⟨b, hb, hptr, hmeta, -⟩ := hH
  have hbp : b = pg 5 := by
    have hlt := hC.slab_block hw hf (by norm_num) (by norm_num) hb
    rw [← huser, hptr, ofUser_toUser (by omega)]
  rw [hbp] at hb hmeta
  have hfree : ∀ fuel, free h₁ fuel (toUser (pg 5)) =
      .ok { h₁ with machine := pmmFree h₁.machine (ofUser (toUser (pg 5))) 5 } := by
    intro fuel
    rw [free_eq _ _ (toUser_ne_zero (by omega)), huser, freeRoute, if_neg (by omega), hmeta]
    rfl
  refine ⟨h, _, toUser (pg 5), hinit, Run.snoc .nil hs₁.1, List.mem_cons_self .., hfree, ?_, fun hg => ?_⟩
  · rw [huser, hC.head_eq 5 (by norm_num)]
    unfold pageToBit header
    omega
  · -- `slab_cache_free` does not change the page counter
    obtain ⟨m', -, -, hres⟩ := free_put (hC.inv 5 (by norm_num) (by norm_num)) hb
    have hgo := hg 2
    rw [hfree, huser] at hgo
    have hused := hC.pmm.used
    have hbound := initUsed_bounds hw hf
    have hlp := hC.pmm.safe.livePages_le
    rcases hres ⟨true, false⟩ 2 with hr | ⟨-, hr⟩
    · rw [hr] at hgo
      split_ifs at hgo
      · cases hgo
      · have hcnt := congrArg (fun h : Heap => h.machine.pmm.usedPageCnt) (Except.ok.inj hgo)
        simp only [pmmFree] at hcnt
        omega
    · rw [hr] at hgo
      cases hgo

end FusionCore.Libk.MallocRun
