import FusionCore.Mm.SlabDestroy

/-! # `slab_cache_reap` over the physical memory manager

`ReapLaw` says what a call leaves of a list of slabs: the slabs that have buffers in use, in the
order they had, with their counts and free lists; the pages of the others free in the bitmap, each
given to `pmm_free` once; the cursor at the head. It holds for every list of slabs in allocated pages
of their own, whatever their counts are (`reap_law`). -/

namespace FusionCore.Mm.SlabReapPages

open FusionCore.Lib.ByteMem FusionCore.Lib.NullChain
open FusionCore.Mm.Defs FusionCore.Mm.Phys FusionCore.Mm.PhysInit FusionCore.Mm.PhysRun
open FusionCore.Mm.PhysSpec FusionCore.Mm.Pages FusionCore.Mm.PhysPages
open FusionCore.Mm.Slab FusionCore.Mm.SlabView FusionCore.Mm.SlabRep FusionCore.Mm.SlabOps
open FusionCore.Mm.SlabLife FusionCore.Mm.SlabReap FusionCore.Mm.SlabSpec FusionCore.Mm.SlabDestroy

variable {mmap : List MmapEntry} {s s' : Machine Pmm} {live : List (ℕ × ℕ)} {cache : ℕ} {L : List ℕ}

/-- The pages allocated one by one. -/
def singles (live : List (ℕ × ℕ)) : Set ℕ := {p | (p, 1) ∈ live}

/-- The link of the buffer `b` lies in an allocated page, apart from the records of the cache and its
slabs. -/
def OffRecords (live : List (ℕ × ℕ)) (cache : ℕ) (L : List ℕ) (b : ℕ) : Prop :=
  pageOf b ∈ singles live ∧ b % 4096 + 8 ≤ 4096 ∧ (b + 8 ≤ cache ∨ cache + 40 ≤ b) ∧
    ∀ h ∈ L, b + 8 ≤ h ∨ h + 32 ≤ b

/-- **What `slab_cache_reap` does** to a cache with the slabs `L`: `freed` are the pointers given to
`pmm_free`, `live` the allocations before the call. -/
structure ReapLaw (mmap : List MmapEntry) (live : List (ℕ × ℕ)) (cache : ℕ) (L : List ℕ)
    (s s' : Machine Pmm) (freed : List ℕ) : Prop where
  list : Slabs s'.mem (load64 s'.mem (cacheHead cache))
    (L.filter fun h => load64 s.mem (slabCount h) ≠ load64 s.mem (cacheMax cache))
  cursor : load64 s'.mem (cacheSlabs cache) = load64 s'.mem (cacheHead cache)
  count : ∀ h ∈ L, load64 s'.mem (slabCount h) = load64 s.mem (slabCount h)
  max : load64 s'.mem (cacheMax cache) = load64 s.mem (cacheMax cache)
  free : ∀ h ∈ L, ∀ free, Chain (fun b => load64 s.mem (bufctlNext b))
    (load64 s.mem (slabFreeHead h)) free →
    (∀ b ∈ free, OffRecords live cache L b) →
    Chain (fun b => load64 s'.mem (bufctlNext b)) (load64 s'.mem (slabFreeHead h)) free
  freed_eq : freed = L.filter fun h => load64 s.mem (slabCount h) = load64 s.mem (cacheMax cache)
  once : (freed.map pageOf).Nodup
  pages : ∀ i, i ∈ freeSet s' ↔ i ∈ freeSet s ∨ ∃ h ∈ freed, i = h / 4096
  allocated : ∀ h ∈ freed, h / 4096 ∉ freeSet s
  used : s'.pmm.usedPageCnt + freed.length = s.pmm.usedPageCnt
  inv : ∃ live', Inv mmap ⟨s', live'⟩ ∧
    ∀ b, b ∈ live' ↔ b ∈ live ∧ ¬ (b.2 = 1 ∧ ∃ h ∈ freed, b.1 = pageOf h)

/-! ### The law -/

theorem mem_singles {b : ℕ × ℕ} (h1 : b.2 = 1) : b.1 ∈ singles live ↔ b ∈ live := by
  rw [show b = (b.1, 1) from Prod.ext rfl h1]
  exact Iff.rfl

theorem over_singles (hI : Inv mmap ⟨s, live⟩) :
    Over mmap (live.filter fun b => b.2 ≠ 1) s (singles live) := by
  refine ⟨live, hI, fun b => ?_, fun p _ hp => by simp at hp⟩
  rw [List.mem_filter]
  by_cases h1 : b.2 = 1
  · rw [mem_singles h1]
    simp [h1]
  · simp [h1]

theorem pages_nodup {arena : Set ℕ} {slabs : List ℕ} (hown : OwnPages arena cache L)
    (hs : slabs.Sublist L) : (slabs.map pageOf).Nodup := by
  have h1 := (List.nodup_cons.mp hown.nodup).2.sublist (hs.map _)
  refine (List.nodup_map_iff_inj_on (h1.of_map _)).mpr fun x hx y hy he => ?_
  refine List.inj_on_of_nodup_map h1 hx hy ?_
  unfold pageOf at he
  omega

theorem pages_of (slabs : List ℕ) :
    {p | ∃ x ∈ slabs, p = x / 4096 * 4096} = {p | p ∈ slabs.map pageOf} := by
  ext p
  constructor
  · rintro ⟨x, hx, rfl⟩
    exact List.mem_map.mpr ⟨x, hx, rfl⟩
  · intro hp
    obtain ⟨x, hx, rfl⟩ := List.mem_map.mp hp
    exact ⟨x, hx, rfl⟩

theorem free_list_same {arena : Set ℕ} {h : ℕ} {free : List ℕ} (hown : OwnPages arena cache L)
    (hsub : singles live ⊆ arena) (hs : SameBut arena (linkBytes cache L) s.mem s'.mem) (hh : h ∈ L)
    (hfree : Chain (fun b => load64 s.mem (bufctlNext b)) (load64 s.mem (slabFreeHead h)) free)
    (hoff : ∀ b ∈ free, OffRecords live cache L b) :
    Chain (fun b => load64 s'.mem (bufctlNext b)) (load64 s'.mem (slabFreeHead h)) free := by
  rw [show load64 s'.mem (slabFreeHead h) = load64 s.mem (slabFreeHead h) from
    hown.slab_word hs (fun _ h => h) hh (by norm_num) (Or.inr (by norm_num))]
  refine hfree.congr fun b hb => ?_
  obtain ⟨h1, h2, h3, h4⟩ := hoff b hb
  refine hs.load64 (hsub h1) (by unfold pageOf bufctlNext; omega) fun a ha => ?_
  unfold bufctlNext
  rcases ha with ha | ⟨x, hx, ha⟩
  · unfold cacheHead at ha
    omega
  · have h5 := h4 x hx
    omega

/-- **The list semantics of `slab_cache_reap`.** For every list of slabs, each in an allocated page of its
own, and whatever their counts are, the call returns and leaves what `ReapLaw` says. -/
theorem reap_law (hw : WellFormed mmap) (hf : Fits mmap) (hI : Inv mmap ⟨s, live⟩) (flags : SlabFlags)
    (fuel : ℕ) (hown : OwnPages (singles live) cache L)
    (hlist : Slabs s.mem (load64 s.mem (cacheHead cache)) L) (hfuel : L.length < fuel) :
    ∃ s' freed, slabCacheReap pmmSource flags cache fuel s = .ok (s', freed) ∧
      ReapLaw mmap live cache L s s' freed := by
  have hR := pmmSource_releases hw hf (live.filter fun b => b.2 ≠ 1)
  have hG := over_singles hI
  have hsub : singles live ⊆ arenaOf mmap := hR.handed hG
  have harena := hown.mono hsub
  rcases reapList_spec hR harena flags fuel hG (fun x hx => (hown.slab x hx).1) hlist with
    ⟨s', hr, h'⟩ | ⟨hle, -⟩
  swap
  · omega
  have hkept : (L.filter fun x => !isFull s.mem cache x) =
      L.filter fun h => load64 s.mem (slabCount h) ≠ load64 s.mem (cacheMax cache) :=
    List.filter_congr fun x _ => by rw [isFull, decide_not]
  generalize hfreed : L.filter (isFull s.mem cache) = freed at hr h'
  have hfreedL : freed.Sublist L := hfreed ▸ List.filter_sublist
  -- the pages of the slabs dropped, as a list
  have hnd := pages_nodup hown hfreedL
  have hT := h'.good
  rw [pages_of] at hT
  have hps : ∀ p ∈ freed.map pageOf, p ∈ singles live := fun p hp => by
    obtain ⟨x, hx, rfl⟩ := List.mem_map.mp hp
    exact (hown.slab x (hfreedL.subset hx)).1
  obtain ⟨hfree, halloc, hused⟩ := hG.given_back hT hps hnd
  refine ⟨s', freed, hr, ?_, h'.rewound, fun h hh => ?_, ?_, fun h hh free hc hoff =>
    ?_, hfreed.symm, hnd, fun i => ?_, fun h hh => ?_, ?_, ?_⟩
  · rw [← hkept]
    exact h'.list
  · exact harena.slab_word h'.same (fun _ h => h) hh (by norm_num) (Or.inr le_rfl)
  · exact harena.cache_word h'.same (fun _ h => h) le_rfl
  · exact free_list_same harena hsub h'.same hh hc hoff
  · rw [hfree, List.mem_map]
    refine or_congr_right (exists_congr fun x => and_congr_right fun _ => ?_)
    unfold pageOf
    omega
  · have h1 := halloc _ (List.mem_map_of_mem hh)
    rwa [show pageOf h / 4096 = h / 4096 by unfold pageOf; omega] at h1
  · rwa [List.length_map] at hused
  · obtain ⟨live', hI', hlive', -⟩ := hT
    refine ⟨live', hI', fun b => ?_⟩
    rw [hlive', List.mem_filter, Set.mem_sdiff]
    by_cases h1 : b.2 = 1
    · rw [mem_singles h1]
      simp [h1, eq_comm]
    · simp [h1]

/-- Two slabs, of which the first counts all its buffers as free: the head of the list is dropped. -/
theorem reap_law_small : ∃ s live x y s', Slabs s.mem (load64 s.mem (cacheHead 8192)) [x, y] ∧
    slabCacheReap pmmSource ⟨true, false⟩ 8192 3 s = .ok (s', [x]) ∧
    ReapLaw smallMap live 8192 [x, y] s s' [x] := by
  obtain ⟨-, -, s, a, b, l, H, owned, -, -, h, hlen, -⟩ := small_mixed
  obtain ⟨live, hI, hlive⟩ := h.good
  have hown : OwnPages (singles live) 8192 [header a, header b] :=
    ownPages_of_inv h.inv fun p hp => (hlive (p, 1)).mpr ⟨rfl, h.handed hp⟩
  have hchain : Slabs s.machine.mem (load64 s.machine.mem (cacheHead 8192)) [header a, header b] :=
    h.inv.rep.chain
  obtain ⟨s', freed, hr, hlaw⟩ :=
    reap_law smallMap_wellFormed smallMap_fits hI ⟨true, false⟩ 3 hown hchain
    (by simp)
  -- the counts
  have ha : load64 s.machine.mem (slabCount (header a)) = load64 s.machine.mem (cacheMax 8192) := by
    rw [h.inv.rep.max_eq, ← hlen]
    exact h.inv.rep.count ⟨a, l⟩ (by simp)
  have hb : load64 s.machine.mem (slabCount (header b)) ≠ load64 s.machine.mem (cacheMax 8192) := by
    rw [h.inv.rep.max_eq, h.inv.rep.count ⟨b, (fresh 512 b).free.tail⟩ (by simp)]
    simp [fresh, cap]
  have hfreed : freed = [header a] := by
    rw [hlaw.freed_eq]
    simp [ha, hb]
  rw [hfreed] at hr hlaw
  exact ⟨s.machine, live, _, _, s', hchain, hr, hlaw⟩

end FusionCore.Mm.SlabReapPages
