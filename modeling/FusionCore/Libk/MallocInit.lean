import FusionCore.Libk.Malloc
import FusionCore.Mm.PhysPages
import FusionCore.Mm.SlabLife

/-! # The heap after `malloc_heap_init`

`Built h j pg H`: the first `j` caches of the heap `h` are made, cache `k` with buffers of
`4 * 2 ^ k` bytes and one slab in the page `pg k`. From buffers of 16 bytes on a cache satisfies the
invariant of the slab allocator; a smaller buffer cannot hold a bufctl, so that of the first two
caches only the record is known. -/

namespace FusionCore.Libk.MallocInit

open FusionCore.Lib.ByteMem FusionCore.Lib.NullChain
open FusionCore.Mm.Defs FusionCore.Mm.Phys FusionCore.Mm.Pages FusionCore.Mm.Slab FusionCore.Mm.SlabView
open FusionCore.Mm.SlabRep FusionCore.Mm.SlabLife FusionCore.Mm.PhysPages FusionCore.Libk.Malloc
open FusionCore.Mm.PhysSpec (smallMap)

variable {arena : Set ℕ} {Good : Machine Pmm → Set ℕ → Prop} {h h' : Heap} {j : ℕ} {pg : ℕ → ℕ}
  {H : Set ℕ} {names : ℕ → ℕ}

/-- The buffer size of cache `k`. -/
def classSize (k : ℕ) : ℕ := 4 * 2 ^ k

/-- The pages of the first `j` caches are different. -/
structure Distinct (caches pg : ℕ → ℕ) (j : ℕ) : Prop where
  cache_inj : ∀ k < j, ∀ l < j, caches k = caches l → k = l
  page_inj : ∀ k < j, ∀ l < j, pg k = pg l → k = l
  cache_ne : ∀ k < j, ∀ l < j, caches k ≠ pg l

/-- **The first `j` caches are made.** -/
structure Built (Good : Machine Pmm → Set ℕ → Prop) (h : Heap) (j : ℕ) (pg : ℕ → ℕ)
    (H : Set ℕ) : Prop where
  good : Good h.machine H
  mem : ∀ k < j, h.slabCaches k ∈ H ∧ pg k ∈ H
  distinct : Distinct h.slabCaches pg j
  size_eq : ∀ k < j, load64 h.machine.mem (cacheSlabSize (h.slabCaches k)) = classSize k
  head_eq : ∀ k < j, load64 h.machine.mem (cacheHead (h.slabCaches k)) = header (pg k)
  inv : ∀ k < j, 2 ≤ k → CacheInv h.machine.mem (classSize k) (h.slabCaches k) {pg k}
    [fresh (classSize k) (pg k)] []

theorem Distinct.snoc {caches : ℕ → ℕ} {cache p : ℕ} (hd : Distinct caches pg j)
    (hm : ∀ k < j, caches k ∈ H ∧ pg k ∈ H) (hc : cache ∉ H) (hp : p ∉ insert cache H) :
    Distinct (Function.update caches j cache) (Function.update pg j p) (j + 1) := by
  have hpc : p ≠ cache := fun he => hp (Or.inl he)
  have hpH : p ∉ H := fun hm => hp (Or.inr hm)
  have hlt : ∀ {k}, k < j + 1 → k ≠ j → k < j := fun h1 h2 => by omega
  refine ⟨fun k hk l hl he => ?_, fun k hk l hl he => ?_, fun k hk l hl he => ?_⟩
  · by_cases h1 : k = j <;> by_cases h2 : l = j
    · rw [h1, h2]
    · rw [h1, Function.update_self, Function.update_of_ne h2] at he
      exact absurd (he ▸ (hm l (hlt hl h2)).1) hc
    · rw [h2, Function.update_self, Function.update_of_ne h1] at he
      exact absurd (he ▸ (hm k (hlt hk h1)).1) hc
    · rw [Function.update_of_ne h1, Function.update_of_ne h2] at he
      exact hd.cache_inj k (hlt hk h1) l (hlt hl h2) he
  · by_cases h1 : k = j <;> by_cases h2 : l = j
    · rw [h1, h2]
    · rw [h1, Function.update_self, Function.update_of_ne h2] at he
      exact absurd (he ▸ (hm l (hlt hl h2)).2) hpH
    · rw [h2, Function.update_self, Function.update_of_ne h1] at he
      exact absurd (he ▸ (hm k (hlt hk h1)).2) hpH
    · rw [Function.update_of_ne h1, Function.update_of_ne h2] at he
      exact hd.page_inj k (hlt hk h1) l (hlt hl h2) he
  · by_cases h1 : k = j <;> by_cases h2 : l = j
    · rw [h1, h2, Function.update_self, Function.update_self] at he
      exact hpc he.symm
    · rw [h1, Function.update_self, Function.update_of_ne h2] at he
      exact absurd (he ▸ (hm l (hlt hl h2)).2) hc
    · rw [h2, Function.update_self, Function.update_of_ne h1] at he
      exact absurd (he ▸ (hm k (hlt hk h1)).1) hpH
    · rw [Function.update_of_ne h1, Function.update_of_ne h2] at he
      exact hd.cache_ne k (hlt hk h1) l (hlt hl h2) he

theorem classSize_ge {k : ℕ} (hk : 2 ≤ k) : 16 ≤ classSize k := by
  have : 2 ^ 2 ≤ 2 ^ k := Nat.pow_le_pow_right (by norm_num) hk
  unfold classSize
  omega

theorem record_kept {m m' : Mem} {cache k : ℕ} (hs : SamePages H m m') (hc : cache ∈ H) (hk : k ≤ 24) :
    load64 m' (cache + k) = load64 m (cache + k) :=
  load64_congr fun b hb => hs cache hc <| by
    simp only [Set.mem_Ico, mem_page] at hb ⊢
    omega

section Init
variable (hL : Lawful pmmSource arena Good)
include hL

/-- **One call of `malloc_heap_init`.** The pages handed out before stay as they are. -/
theorem built_step {cache : ℕ} {s : Machine Pmm} (hB : Built Good h j pg H)
    (hok : slabCacheCreate pmmSource ⟨true, true⟩ (names j) (classSize j) h.machine = .ok (cache, s)) :
    ∃ p, Built Good ⟨s, Function.update h.slabCaches j cache⟩ (j + 1) (Function.update pg j p)
      (insert p (insert cache H)) ∧ cache ∉ H ∧ p ∉ H ∧ SamePages H h.machine.mem s.mem := by
  obtain ⟨hc, p, hp, hG, hs, hsize, hhead, -⟩ := create_frame hL rfl hB.good hok
  have hlt : ∀ {k}, k < j + 1 → k ≠ j → k < j := fun h1 h2 => by omega
  refine ⟨p, ⟨hG, fun k hk => ?_, hB.distinct.snoc hB.mem hc hp, fun k hk => ?_, fun k hk => ?_,
    fun k hk h2 => ?_⟩, hc, fun hpH => hp (Or.inr hpH), hs⟩
  · by_cases h1 : k = j
    · subst h1
      simp only [Function.update_self]
      exact ⟨Or.inr (Or.inl rfl), Or.inl rfl⟩
    · simp only [Function.update_of_ne h1]
      obtain ⟨h3, h4⟩ := hB.mem k (hlt hk h1)
      exact ⟨Or.inr (Or.inr h3), Or.inr (Or.inr h4)⟩
  · by_cases h1 : k = j
    · subst h1
      simpa only [Function.update_self] using hsize
    · simp only [Function.update_of_ne h1]
      exact (record_kept hs (hB.mem k (hlt hk h1)).1 (by norm_num)).trans (hB.size_eq k (hlt hk h1))
  · by_cases h1 : k = j
    · subst h1
      simpa only [Function.update_self] using hhead
    · simp only [Function.update_of_ne h1]
      exact (record_kept hs (hB.mem k (hlt hk h1)).1 le_rfl).trans (hB.head_eq k (hlt hk h1))
  · by_cases h1 : k = j
    · subst h1
      have hc0 : cache ≠ 0 := (hL.pages (hL.handed hG (Or.inr (Or.inl rfl)))).2.1
      obtain ⟨-, ps, hown, -, hlen⟩ := create_spec hL (classSize_ge h2) hB.good hc0 hok
      obtain ⟨q, rfl⟩ := List.length_eq_one_iff.mp (hlen rfl)
      -- the slab is the one at the head
      have hq : q = p := by
        have h3 : load64 s.mem (cacheHead cache) = header q := (chain_cons_iff.mp hown.inv.rep.chain).1
        rw [hhead] at h3
        unfold header at h3
        omega
      have hset : {a | a ∈ [q]} = ({p} : Set ℕ) := by
        ext a
        simp [hq]
      have hinv := hown.inv
      rw [hset, hq] at hinv
      simp only [Function.update_self]
      exact hinv
    · simp only [Function.update_of_ne h1]
      refine inv_samePages (hB.inv k (hlt hk h1) h2) (hs.mono ?_)
      rintro a (rfl | rfl)
      · exact (hB.mem k (hlt hk h1)).1
      · exact (hB.mem k (hlt hk h1)).2

omit hL in
/-- The caches made from index `j` on, and the pages `H` handed out before. -/
structure Kept (h h' : Heap) (j : ℕ) (pg pg' : ℕ → ℕ) (H H' : Set ℕ) : Prop where
  subset : H ⊆ H'
  same : SamePages H h.machine.mem h'.machine.mem
  old : ∀ k < j, h'.slabCaches k = h.slabCaches k ∧ pg' k = pg k
  new : ∀ k < 8, j ≤ k → h'.slabCaches k ∉ H ∧ pg' k ∉ H

theorem built_createCaches {n : ℕ} (hB : Built Good h j pg H) (hn : j + n = 8)
    (hok : createCaches names ((List.range' j n).map classSize) j h = .ok h') :
    ∃ pg' H', Built Good h' 8 pg' H' ∧ Kept h h' j pg pg' H H' ∧
      ∀ p ∈ H', p ∈ H ∨ ∃ k < 8, p = h'.slabCaches k ∨ p = pg' k := by
  induction n generalizing j h pg H with
  | zero =>
    cases hok
    obtain rfl : j = 8 := by omega
    exact ⟨pg, H, hB, ⟨fun _ hp => hp, fun _ _ _ _ => rfl, fun _ _ => ⟨rfl, rfl⟩, fun k h1 h2 => by
      omega⟩, fun p hp => Or.inl hp⟩
  | succ n ih =>
    rw [List.range'_succ, List.map_cons, createCaches] at hok
    cases hr : slabCacheCreate pmmSource ⟨true, true⟩ (names j) (classSize j) h.machine with
    | error e =>
      rw [hr] at hok
      cases hok
    | ok r =>
      rw [hr] at hok
      obtain ⟨p, hB', hc, hp, hs⟩ := built_step hL hB hr
      obtain ⟨pg', H', hB'', hK, hO⟩ := ih hB' (by omega) hok
      have hsub : H ⊆ insert p (insert r.1 H) := fun a ha => Or.inr (Or.inr ha)
      refine ⟨pg', H', hB'', ⟨hsub.trans hK.subset, hs.trans hsub hK.same, fun k hk => ?_,
        fun k hk hjk => ?_⟩, fun a ha => ?_⟩
      · have hne : k ≠ j := by omega
        obtain ⟨h1, h2⟩ := hK.old k (by omega)
        exact ⟨h1.trans (Function.update_of_ne hne _ _), h2.trans (Function.update_of_ne hne _ _)⟩
      · rcases Nat.eq_or_lt_of_le hjk with rfl | hjk
        · obtain ⟨h1, h2⟩ := hK.old j (by omega)
          rw [h1.trans (Function.update_self ..), h2.trans (Function.update_self ..)]
          exact ⟨hc, hp⟩
        · obtain ⟨h1, h2⟩ := hK.new k hk hjk
          exact ⟨fun ha => h1 (hsub ha), fun ha => h2 (hsub ha)⟩
      · obtain ⟨h1, h2⟩ := hK.old j (by omega)
        rcases hO a ha with (rfl | rfl | ha) | hk
        · exact Or.inr ⟨j, by omega, Or.inr (h2.trans (Function.update_self ..)).symm⟩
        · exact Or.inr ⟨j, by omega, Or.inl (h1.trans (Function.update_self ..)).symm⟩
        · exact Or.inl ha
        · exact Or.inr hk

omit hL in
theorem heapSizes_eq : heapSizes = (List.range' 0 8).map classSize := rfl

/-- **The heap after `malloc_heap_init`.** -/
theorem built_of_init (hG : Good h.machine H) (hok : mallocHeapInit names h = .ok h') :
    ∃ pg H', Built Good h' 8 pg H' ∧ Kept h h' 0 (fun _ => 0) pg H H' ∧
      ∀ p ∈ H', p ∈ H ∨ ∃ k < 8, p = h'.slabCaches k ∨ p = pg k := by
  rw [mallocHeapInit, heapSizes_eq] at hok
  have hB : Built Good h 0 (fun _ => 0) H := by
    refine ⟨hG, ?_, ⟨?_, ?_, ?_⟩, ?_, ?_, ?_⟩ <;> omega
  exact built_createCaches hL hB rfl hok

end Init

/-! ### Room for the caches -/

theorem classSize_ok {k : ℕ} (hk : k < 8) : classSize k ≤ 512 ∧ isPowerOfTwo (classSize k) = true := by
  interval_cases k <;> decide

theorem createCaches_returns (names : ℕ → ℕ) {N n : ℕ} {F : Finset ℕ} (hL : Lawful pmmSource arena Good)
    (hserves : ∀ (s : Machine Pmm) (F : Finset ℕ), Good s F → F.card < N → (pmmSource.allocz s).1 ≠ 0)
    (hG : Good h.machine F) (hc : F.card + 2 * n ≤ N) (hj : j + n ≤ 8) :
    ∃ h', createCaches names ((List.range' j n).map classSize) j h = .ok h' := by
  induction n generalizing j h F with
  | zero => exact ⟨h, rfl⟩
  | succ n ih =>
    have h0 := hserves _ _ hG (by omega)
    have h1 : ¬ Exhausted pmmSource Good (insert (pmmSource.allocz h.machine).1 F) := by
      rintro ⟨s, hG', h1⟩
      rw [← Finset.coe_insert] at hG'
      exact hserves _ _ hG' (lt_of_le_of_lt (Finset.card_insert_le _ _) (by omega)) h1
    obtain ⟨hle, hpow⟩ := classSize_ok (show j < 8 by omega)
    obtain ⟨s', hok⟩ := create_returns hL ⟨true, true⟩ (names j) hle hpow hG h0 h1
    obtain ⟨-, p, -, hG', -⟩ := create_frame hL rfl hG hok
    rw [← Finset.coe_insert, ← Finset.coe_insert] at hG'
    have hcard := Finset.card_insert_le p (insert (pmmSource.allocz h.machine).1 F)
    have hcard' := Finset.card_insert_le (pmmSource.allocz h.machine).1 F
    obtain ⟨h', hh⟩ := ih (h := ⟨s', Function.update h.slabCaches j (pmmSource.allocz h.machine).1⟩)
      (j := j + 1) hG' (by omega) (by omega)
    refine ⟨h', ?_⟩
    rw [List.range'_succ, List.map_cons, createCaches, hok]
    exact hh

theorem init_returns (names : ℕ → ℕ) {N : ℕ} (hL : Lawful pmmSource arena Good)
    (hserves : ∀ (s : Machine Pmm) (F : Finset ℕ), Good s F → F.card < N → (pmmSource.allocz s).1 ≠ 0)
    (hG : Good h.machine ∅) (hN : 16 ≤ N) : ∃ h', mallocHeapInit names h = .ok h' := by
  obtain ⟨h', hok⟩ := createCaches_returns names (j := 0) (n := 8) (F := ∅) hL hserves (by simpa using hG)
    (by simpa using hN) le_rfl
  exact ⟨h', hok⟩

theorem small_heap : ∃ h pg H, mallocHeapInit (fun _ => 0) ⟨booted, fun _ => 0⟩ = .ok h ∧
    Built (Handed smallMap) h 8 pg H ∧ Kept ⟨booted, fun _ => 0⟩ h 0 (fun _ => 0) pg ∅ H := by
  obtain ⟨h, hok⟩ := init_returns (fun _ => 0) (h := ⟨booted, fun _ => 0⟩) smallMap_lawful
    (fun _ _ hG hc => smallMap_serves hG hc) handed_booted (by norm_num)
  obtain ⟨pg, H, hB, hK, -⟩ := built_of_init smallMap_lawful (h := ⟨booted, fun _ => 0⟩) handed_booted hok
  exact ⟨h, pg, H, hok, hB, hK⟩

end FusionCore.Libk.MallocInit
