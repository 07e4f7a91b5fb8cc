import FusionCore.Mm.SlabOps

/-! # How a cache gets a slab

`slab_create_slab` writes the header of the new page and hooks it in behind the slab at the cursor;
the loop over `slab_init_bufctls` then threads the free list through the page. For buffers of at
least 16 bytes, the size of a bufctl, the list is the buffers of the page in order (`init_list`); for
any size the loop stays in the page (`init_frame`). -/

namespace FusionCore.Mm.SlabGrow

open FusionCore.Lib.ByteMem FusionCore.Lib.NullChain
open FusionCore.Mm.Defs FusionCore.Mm.Pages FusionCore.Mm.Slab FusionCore.Mm.SlabView
open FusionCore.Mm.SlabRep FusionCore.Mm.SlabOps

/-! ### The bufctls of a page -/

/-- The page `p` is being set up: the cursor of the cache is at its header. -/
structure Setup (m : Mem) (size cache p : ℕ) : Prop where
  page_ok : p % 4096 = 0 ∧ p ≠ 0 ∧ p < 2 ^ 52
  cache_ok : cache % 4096 = 0
  ne : cache ≠ p
  size_eq : load64 m (cacheSlabSize cache) = size
  at_cursor : load64 m (cacheSlabs cache) = header p

section Init
variable {m m' : Mem} {size cache p n f : ℕ}

theorem Setup.frame (h : Setup m size cache p) (hd : DiffersOn (page p) m m') :
    Setup m' size cache p := by
  have h1 := h.page_ok
  have h2 := h.cache_ok
  have h3 := h.ne
  have hk : ∀ k, k ≤ 32 → load64 m' (cache + k) = load64 m (cache + k) := fun k hk =>
    hd.load64 fun b hb => by rw [mem_page] at hb; omega
  exact ⟨h1, h2, h3, (hk 8 (by norm_num)).trans h.size_eq, (hk 32 le_rfl).trans h.at_cursor⟩

/-- The last bufctl, as the header keeps it after `n` iterations. -/
def lastBufctl (size p : ℕ) : ℕ → ℕ
  | 0 => 0
  | n + 1 => slot size p n

/-- **One iteration**, with the last bufctl kept in the header. -/
theorem slabInitBufctls_eq (h : Setup m size cache p) (hn : n < cap size)
    (hlast : load64 m (slabFree (header p)) = lastBufctl size p n) :
    slabInitBufctls m cache p n =
      let m₁ := store64 m (bufctlPtr (slot size p n)) (slot size p n)
      store64 (if n = 0 then store64 m₁ (slabFreeHead (header p)) (slot size p n)
        else store64 m₁ (bufctlNext (slot size p (n - 1))) (slot size p n))
        (slabFree (header p)) (slot size p n) := by
  have hend := slot_end hn
  obtain ⟨hp1, hp2, hp3⟩ := h.page_ok
  have hc := h.cache_ok
  have hne := h.ne
  have hnew : (p + load64 m (cacheSlabSize cache) * n) % 2 ^ 64 = slot size p n := by
    rw [h.size_eq]
    exact Nat.mod_eq_of_lt (by omega)
  have hslot : p ≤ slot size p n ∧ slot size p n + size ≤ p + 4056 := by unfold slot; omega
  have hlt : slot size p n < 2 ^ 64 := by omega
  unfold slabInitBufctls
  rw [hnew]
  dsimp only
  generalize hm₁ : store64 m (bufctlPtr (slot size p n)) (slot size p n) = m₁
  have hcur : load64 m₁ (cacheSlabs cache) = header p := by
    rw [← hm₁, load64_store64_of_disjoint (by unfold bufctlPtr cacheSlabs; omega), h.at_cursor]
  have hl₁ : load64 m₁ (slabFree (header p)) = lastBufctl size p n := by
    rw [← hm₁, load64_store64_of_disjoint (by unfold bufctlPtr slabFree header; omega), hlast]
  cases n with
  | zero =>
    have hl₁ : load64 m₁ (slabFree (header p)) = 0 := hl₁
    simp only [hcur, hl₁, if_true]
  | succ k =>
    have hl₁ : load64 m₁ (slabFree (header p)) = slot size p k := hl₁
    have hk := slot_end (show k < cap size by omega)
    have hs : p ≤ slot size p k ∧ slot size p k + size ≤ p + 4056 := by unfold slot; omega
    have hs0 : slot size p k ≠ 0 := by omega
    have hl₂ : load64 (store64 m₁ (bufctlNext (slot size p k)) (slot size p (k + 1)))
        (slabFree (header p)) = slot size p k := by
      rw [load64_store64_of_disjoint (by unfold bufctlNext slabFree header; omega), hl₁]
    simp only [hcur, hl₁, if_neg hs0, Nat.succ_ne_zero, if_false, Nat.add_sub_cancel, hl₂]
    rw [load64_store64 hlt]

/-- The bytes of a page the loop may write: those up to the end of a bufctl in the last buffer, and
the last two fields of the header. -/
def initBytes (size p : ℕ) : Set ℕ := Set.Ico p (p + (4072 - size)) ∪ Set.Ico (p + 4080) (p + 4096)

theorem initBytes_subset : initBytes size p ⊆ page p := by
  rintro a (ha | ha) <;> rw [Set.mem_Ico] at ha <;> exact mem_page.mpr (by omega)

/-- **The loop stays in the page** and keeps the last bufctl in the header, for buffers of any size. -/
theorem init_frame (h : Setup m size cache p) (hfree : load64 m (slabFree (header p)) = 0) :
    ∀ n ≤ cap size, DiffersOn (initBytes size p) m (initBufctls m cache p n) ∧
      load64 (initBufctls m cache p n) (slabFree (header p)) = lastBufctl size p n
  | 0, _ => ⟨DiffersOn.refl _ _, hfree⟩
  | n + 1, hn => by
    obtain ⟨hd, hl⟩ := init_frame h hfree n (by omega)
    have hend := slot_end (show n < cap size by omega)
    obtain ⟨hp1, hp2, hp3⟩ := h.page_ok
    have hslot : p ≤ slot size p n ∧ slot size p n + size ≤ p + 4056 := by unfold slot; omega
    rw [initBufctls, slabInitBufctls_eq (h.frame (hd.mono initBytes_subset)) (by omega) hl]
    refine ⟨?_, load64_store64 (by omega)⟩
    have hd₁ : DiffersOn (initBytes size p) m
        (store64 (initBufctls m cache p n) (bufctlPtr (slot size p n)) (slot size p n)) :=
      differsOn_store64 hd fun b hb => by
        simp only [initBytes, bufctlPtr, Set.mem_union, Set.mem_Ico] at hb ⊢; omega
    refine differsOn_store64 ?_ fun b hb => by
      simp only [initBytes, slabFree, header, Set.mem_union, Set.mem_Ico] at hb ⊢; omega
    split_ifs with h0
    · exact differsOn_store64 hd₁ fun b hb => by
        simp only [initBytes, slabFreeHead, header, Set.mem_union, Set.mem_Ico] at hb ⊢; omega
    · have hend' := slot_end (show n - 1 < cap size by omega)
      have hslot' : p ≤ slot size p (n - 1) ∧ slot size p (n - 1) + size ≤ p + 4056 := by
        unfold slot; omega
      exact differsOn_store64 hd₁ fun b hb => by
        simp only [initBytes, bufctlNext, Set.mem_union, Set.mem_Ico] at hb ⊢; omega

/-- **The loop threads the free list** through the buffers in order. Of the header it writes the fields
`freelist_head` and `freelist` only. -/
theorem init_list (h : Setup m size cache p) (hs : 16 ≤ size)
    (hfree : load64 m (slabFree (header p)) = 0) (hhead : load64 m (slabFreeHead (header p)) = 0)
    (hz : ∀ j < cap size, load64 m (slot size p j) = 0) :
    ∀ n ≤ cap size,
      Chain (fun a => load64 (initBufctls m cache p n) (bufctlNext a))
        (load64 (initBufctls m cache p n) (slabFreeHead (header p)))
        ((List.range n).map (slot size p)) ∧
      (∀ j, n ≤ j → j < cap size → load64 (initBufctls m cache p n) (slot size p j) = 0) ∧
      ∀ k ≤ 8, load64 (initBufctls m cache p n) (header p + k) = load64 m (header p + k)
  | 0, _ => by
    refine ⟨?_, fun j _ hj => hz j hj, fun _ _ => rfl⟩
    rw [initBufctls, hhead]
    exact .nil
  | n + 1, hn => by
    obtain ⟨hch, hzero, hhdr⟩ := init_list h hs hfree hhead hz n (by omega)
    obtain ⟨hd, hl⟩ := init_frame h hfree n (by omega)
    have hp := h.page_ok
    have hslot : ∀ j < cap size, p ≤ slot size p j ∧ slot size p j + size ≤ p + 4056 := by
      intro j hj
      have := slot_end hj
      unfold slot
      omega
    have hap : ∀ i j, i < j → slot size p i + size ≤ slot size p j := by
      intro i j hij
      have := Nat.mul_le_mul_left size hij
      rw [Nat.mul_succ] at this
      unfold slot
      omega
    have hsn := hslot n (by omega)
    rw [initBufctls, slabInitBufctls_eq (h.frame (hd.mono initBytes_subset)) (by omega) hl]
    generalize initBufctls m cache p n = M at hch hzero hhdr hd hl
    dsimp only
    cases n with
    | zero =>
      -- the first buffer becomes the head
      simp only [if_true]
      have hload : ∀ a, (a + 8 ≤ slot size p 0 + 8 ∨ slot size p 0 + 16 ≤ a) →
          (a + 8 ≤ header p + 16 ∨ header p + 32 ≤ a) →
          load64 (store64 (store64 (store64 M (bufctlPtr (slot size p 0)) (slot size p 0))
            (slabFreeHead (header p)) (slot size p 0)) (slabFree (header p)) (slot size p 0)) a =
            load64 M a := by
        intro a h1 h2
        rw [load64_store64_of_disjoint (by unfold slabFree; omega),
          load64_store64_of_disjoint (by unfold slabFreeHead; omega),
          load64_store64_of_disjoint (by unfold bufctlPtr; omega)]
      refine ⟨?_, fun j h1 h2 => ?_, fun k hk => ?_⟩
      · rw [load64_store64_of_disjoint (by unfold slabFree slabFreeHead; omega),
          load64_store64 (by omega)]
        refine .cons (by omega) ?_
        show Chain _ (load64 _ (slot size p 0)) []
        rw [hload _ (by omega) (by unfold header; omega), hzero 0 le_rfl (by omega)]
        exact .nil
      · have := hap 0 j (by omega)
        have := hslot j h2
        rw [hload _ (by omega) (by unfold header; omega), hzero j (by omega) h2]
      · rw [hload _ (by unfold header; omega) (by omega), hhdr k hk]
    | succ n =>
      -- the link of the last buffer is set
      have hsl := hslot n (by omega)
      have hln := hap n (n + 1) (by omega)
      simp only [Nat.succ_ne_zero, if_false, Nat.add_sub_cancel]
      have hload : ∀ a, (a + 8 ≤ slot size p (n + 1) + 8 ∨ slot size p (n + 1) + 16 ≤ a) →
          (a + 8 ≤ slot size p n ∨ slot size p n + 8 ≤ a) → (a + 8 ≤ header p + 24 ∨ header p + 32 ≤ a) →
          load64 (store64 (store64 (store64 M (bufctlPtr (slot size p (n + 1))) (slot size p (n + 1)))
            (bufctlNext (slot size p n)) (slot size p (n + 1))) (slabFree (header p))
            (slot size p (n + 1))) a = load64 M a := by
        intro a h1 h2 h3
        rw [load64_store64_of_disjoint (by unfold slabFree; omega),
          load64_store64_of_disjoint (by unfold bufctlNext; omega),
          load64_store64_of_disjoint (by unfold bufctlPtr; omega)]
      refine ⟨?_, fun j h1 h2 => ?_, fun k hk => ?_⟩
      · rw [hload _ (by unfold slabFreeHead header; omega) (by unfold slabFreeHead header; omega)
          (by unfold slabFreeHead; omega)]
        rw [List.range_succ, List.map_append, List.map_singleton] at hch
        rw [List.range_succ, List.range_succ, List.map_append, List.map_append, List.map_singleton,
          List.map_singleton, List.append_assoc]
        refine hch.cut (by omega) ?_ ?_ fun x hx => ?_
        · show load64 _ (slot size p n) = _
          rw [load64_store64_of_disjoint (by unfold slabFree header; omega)]
          exact load64_store64 (by omega)
        · show load64 _ (slot size p (n + 1)) = 0
          rw [hload _ (by omega) (by omega) (by unfold header; omega), hzero _ le_rfl (by omega)]
        · obtain ⟨i, hi, rfl⟩ := List.mem_map.mp hx
          have hi := List.mem_range.mp hi
          have := hap i n hi
          exact hload (slot size p i) (by omega) (by omega) (by unfold header; omega)
      · have := hap (n + 1) j (by omega)
        have := hslot j h2
        rw [hload _ (by omega) (by omega) (by unfold header; omega), hzero j (by omega) h2]
      · rw [hload _ (by unfold header; omega) (by unfold header; omega) (by omega), hhdr k hk]

end Init

/-! ### The header of a new page -/

/-- A page for a new slab, next to the page of the cache. -/
structure NewPage (cache p : ℕ) : Prop where
  page_ok : p % 4096 = 0 ∧ p ≠ 0 ∧ p < 2 ^ 52
  cache_ok : cache % 4096 = 0
  ne : cache ≠ p

section Create
variable {m : Mem} {cache p c : ℕ}

/-- The four stores of `slab_create_slab` to the new header. -/
def writeHeader (m : Mem) (cache slab : ℕ) : Mem :=
  let m := store64 m (slabNext slab) 0
  let m := store64 m (slabCount slab) (load64 m (cacheMax cache))
  let m := store64 m (slabFreeHead slab) 0
  store64 m (slabFree slab) 0

theorem slabCreateSlab_eq (h : NewPage cache p) : slabCreateSlab m cache p =
    let m := writeHeader m cache (header p)
    if load64 m (cacheSlabs cache) = 0 then
      store64 (store64 m (cacheHead cache) (header p)) (cacheSlabs cache) (header p)
    else
      let m := store64 m (slabNext (load64 m (cacheSlabs cache))) (header p)
      store64 m (cacheSlabs cache) (load64 m (slabNext (load64 m (cacheSlabs cache)))) := by
  have hs : (p + 4096 - 32) % 2 ^ 64 = header p := by
    have := h.page_ok
    unfold header
    omega
  unfold slabCreateSlab
  rw [hs]
  rfl

/-- The new header. -/
theorem writeHeader_spec (h : NewPage cache p) :
    DiffersOn (Set.Ico (header p) (header p + 32)) m (writeHeader m cache (header p)) ∧
    load64 (writeHeader m cache (header p)) (slabNext (header p)) = 0 ∧
    load64 (writeHeader m cache (header p)) (slabCount (header p)) = load64 m (cacheMax cache) ∧
    load64 (writeHeader m cache (header p)) (slabFreeHead (header p)) = 0 ∧
    load64 (writeHeader m cache (header p)) (slabFree (header p)) = 0 := by
  obtain ⟨h1, h2, h3⟩ := h.page_ok
  have h4 := h.cache_ok
  have h5 := h.ne
  have hmax : load64 (store64 m (slabNext (header p)) 0) (cacheMax cache) =
      load64 m (cacheMax cache) :=
    load64_store64_of_disjoint (by unfold slabNext header cacheMax; omega)
  have hlt := load64_lt m (cacheMax cache)
  unfold writeHeader
  dsimp only
  rw [hmax]
  refine ⟨?_, ?_, ?_, ?_, ?_⟩
  · have hsub : ∀ k, k + 8 ≤ 32 → Set.Ico (header p + k) (header p + k + 8) ⊆
        Set.Ico (header p) (header p + 32) := fun k hk b hb => by
      rw [Set.mem_Ico] at hb ⊢
      omega
    exact differsOn_store64 (differsOn_store64 (differsOn_store64 (differsOn_store64
      (DiffersOn.refl _ _) (hsub 0 (by norm_num))) (hsub 8 (by norm_num))) (hsub 16 (by norm_num)))
      (hsub 24 le_rfl)
  · rw [load64_store64_of_disjoint (by unfold slabFree slabNext; omega),
      load64_store64_of_disjoint (by unfold slabFreeHead slabNext; omega),
      load64_store64_of_disjoint (by unfold slabCount slabNext; omega), load64_store64 (by norm_num)]
  · rw [load64_store64_of_disjoint (by unfold slabFree slabCount; omega),
      load64_store64_of_disjoint (by unfold slabFreeHead slabCount; omega), load64_store64 hlt]
  · rw [load64_store64_of_disjoint (by unfold slabFree slabFreeHead; omega),
      load64_store64 (by norm_num)]
  · rw [load64_store64 (by norm_num)]

/-- The new header, with the cursor at it. -/
structure Hooked (m m₁ : Mem) (cache p : ℕ) : Prop where
  next : load64 m₁ (slabNext (header p)) = 0
  count : load64 m₁ (slabCount (header p)) = load64 m (cacheMax cache)
  freeHead : load64 m₁ (slabFreeHead (header p)) = 0
  free : load64 m₁ (slabFree (header p)) = 0
  at_cursor : load64 m₁ (cacheSlabs cache) = header p

/-- **The first slab** of a cache. -/
theorem createSlab_first (h : NewPage cache p) (hcur : load64 m (cacheSlabs cache) = 0) :
    Hooked m (slabCreateSlab m cache p) cache p ∧
    load64 (slabCreateSlab m cache p) (cacheHead cache) = header p ∧
    DiffersOn (Set.Ico (header p) (header p + 32) ∪ Set.Ico (cache + 24) (cache + 40)) m
      (slabCreateSlab m cache p) := by
  obtain ⟨hd, hn, hc, hfh, hf⟩ := writeHeader_spec (m := m) h
  obtain ⟨h1, h2, h3⟩ := h.page_ok
  have h4 := h.cache_ok
  have h5 := h.ne
  have hcur' : load64 (writeHeader m cache (header p)) (cacheSlabs cache) = 0 := by
    refine (hd.load64 fun b hb => ?_).trans hcur
    simp only [header, cacheSlabs, Set.mem_Ico] at hb ⊢
    omega
  rw [slabCreateSlab_eq h]
  dsimp only
  rw [if_pos hcur']
  generalize writeHeader m cache (header p) = M at hd hn hc hfh hf
  have hlt : header p < 2 ^ 64 := by unfold header; omega
  have hoff : ∀ k, k + 8 ≤ 32 →
      load64 (store64 (store64 M (cacheHead cache) (header p)) (cacheSlabs cache) (header p))
        (header p + k) = load64 M (header p + k) := fun k hk => by
    rw [load64_store64_of_disjoint (by unfold cacheSlabs header; omega),
      load64_store64_of_disjoint (by unfold cacheHead header; omega)]
  refine ⟨⟨(hoff 0 (by norm_num)).trans hn, (hoff 8 (by norm_num)).trans hc,
    (hoff 16 (by norm_num)).trans hfh, (hoff 24 le_rfl).trans hf, load64_store64 hlt⟩, ?_, ?_⟩
  · rw [load64_store64_of_disjoint (by unfold cacheSlabs cacheHead; omega), load64_store64 hlt]
  · have hsub : ∀ k, 24 ≤ k → k ≤ 32 → Set.Ico (cache + k) (cache + k + 8) ⊆
        Set.Ico (header p) (header p + 32) ∪ Set.Ico (cache + 24) (cache + 40) :=
      fun k hk hk' b hb => Or.inr ⟨by have := hb.1; omega, by have := hb.2; omega⟩
    exact differsOn_store64 (differsOn_store64 (hd.mono Set.subset_union_left)
      (hsub 24 le_rfl (by norm_num))) (hsub 32 (by norm_num) le_rfl)

/-- **A further slab**: it is hooked in behind the slab at the cursor. -/
theorem createSlab_after (h : NewPage cache p) (hc4 : c % 4096 = 0) (hcp : c ≠ p) (hcc : c ≠ cache)
    (hcur : load64 m (cacheSlabs cache) = header c) :
    Hooked m (slabCreateSlab m cache p) cache p ∧
    load64 (slabCreateSlab m cache p) (slabNext (header c)) = header p ∧
    DiffersOn (Set.Ico (header p) (header p + 32) ∪ Set.Ico (cache + 32) (cache + 40) ∪
      Set.Ico (header c) (header c + 8)) m (slabCreateSlab m cache p) := by
  obtain ⟨hd, hn, hc, hfh, hf⟩ := writeHeader_spec (m := m) h
  obtain ⟨h1, h2, h3⟩ := h.page_ok
  have h4 := h.cache_ok
  have h5 := h.ne
  have hcur' : load64 (writeHeader m cache (header p)) (cacheSlabs cache) = header c := by
    refine (hd.load64 fun b hb => ?_).trans hcur
    simp only [header, cacheSlabs, Set.mem_Ico] at hb ⊢
    omega
  have hc0 : header c ≠ 0 := by unfold header; omega
  rw [slabCreateSlab_eq h]
  dsimp only
  rw [hcur', if_neg hc0]
  generalize writeHeader m cache (header p) = M at hd hn hc hfh hf hcur'
  have hlt : header p < 2 ^ 64 := by unfold header; omega
  have hcur₂ : load64 (store64 M (slabNext (header c)) (header p)) (cacheSlabs cache) = header c := by
    rw [load64_store64_of_disjoint (by unfold slabNext header cacheSlabs; omega), hcur']
  rw [hcur₂, load64_store64 hlt]
  have hoff : ∀ k, k + 8 ≤ 32 →
      load64 (store64 (store64 M (slabNext (header c)) (header p)) (cacheSlabs cache) (header p))
        (header p + k) = load64 M (header p + k) := fun k hk => by
    rw [load64_store64_of_disjoint (by unfold cacheSlabs header; omega),
      load64_store64_of_disjoint (by unfold slabNext header; omega)]
  refine ⟨⟨(hoff 0 (by norm_num)).trans hn, (hoff 8 (by norm_num)).trans hc,
    (hoff 16 (by norm_num)).trans hfh, (hoff 24 le_rfl).trans hf, load64_store64 hlt⟩, ?_, ?_⟩
  · rw [load64_store64_of_disjoint (by unfold cacheSlabs slabNext header; omega), load64_store64 hlt]
  · refine differsOn_store64 (differsOn_store64 (hd.mono fun b hb => Or.inl (Or.inl hb))
      fun b hb => Or.inr hb) fun b hb => Or.inl (Or.inr hb)

end Create

/-! ### The cache with the new slab -/

/-- One iteration of the loop of `slab_cache_grow`, on a page it got. -/
def addSlab (m : Mem) (cache p : ℕ) : Mem :=
  initBufctls (slabCreateSlab m cache p) cache p (load64 (slabCreateSlab m cache p) (cacheMax cache))

section Add
variable {m m₁ m₂ : Mem} {size cache p : ℕ} {owned : Set ℕ} {vs us : List View} {live : List ℕ}

theorem fresh_slab (h : NewPage cache p) (hs : 16 ≤ size) (hk : Hooked m m₁ cache p)
    (hsize : load64 m₁ (cacheSlabSize cache) = size) (hz : ∀ j < cap size, load64 m₁ (slot size p j) = 0)
    (hmax : load64 m (cacheMax cache) = cap size) :
    DiffersOn (page p) m₁ (initBufctls m₁ cache p (cap size)) ∧
    load64 (initBufctls m₁ cache p (cap size)) (slabNext (header p)) = 0 ∧
    load64 (initBufctls m₁ cache p (cap size)) (slabCount (header p)) = cap size ∧
    Chain (fun a => load64 (initBufctls m₁ cache p (cap size)) (bufctlNext a))
      (load64 (initBufctls m₁ cache p (cap size)) (slabFreeHead (header p))) (fresh size p).free := by
  have hset : Setup m₁ size cache p := ⟨h.page_ok, h.cache_ok, h.ne, hsize, hk.at_cursor⟩
  obtain ⟨hch, -, hhdr⟩ := init_list hset hs hk.free hk.freeHead hz (cap size) le_rfl
  refine ⟨(init_frame hset hk.free (cap size) le_rfl).1.mono initBytes_subset,
    (hhdr 0 (by norm_num)).trans hk.next, (hhdr 8 le_rfl).trans (hk.count.trans hmax), hch⟩

/-- The bytes an iteration may write: the new page, head and cursor of the cache, and the link of a slab
that is kept. -/
def growBytes (cache p : ℕ) (us : List View) : Set ℕ :=
  {a | a ∈ page p ∨ (cache + 24 ≤ a ∧ a < cache + 40) ∨
    ∃ u ∈ us, u.page + 4064 ≤ a ∧ a < u.page + 4072}

/-- **The invariant with the new slab.** -/
theorem inv_add (h : CacheInv m size cache owned vs live) (hn : NewPage cache p) (hp : p ∉ owned)
    (hsub : us.Sublist vs) (hd : DiffersOn (growBytes cache p us) m m₂)
    (hch : Chain (fun a => load64 m₂ (slabNext a)) (load64 m₂ (cacheHead cache))
      ((us ++ [fresh size p]).map fun v => header v.page))
    (hcount : load64 m₂ (slabCount (header p)) = cap size)
    (hfree : Chain (fun a => load64 m₂ (bufctlNext a)) (load64 m₂ (slabFreeHead (header p)))
      (fresh size p).free) :
    CacheInv m₂ size cache (insert p owned) (us ++ [fresh size p]) live := by
  have hc := h.cache_ok
  have hpo := hn.page_ok
  have hne := hn.ne
  have hsz := h.size_ge
  have hpages : ∀ q ∈ insert cache (insert p owned), q % 4096 = 0 ∧ q ≠ 0 ∧ q < 2 ^ 52 := by
    rintro q (rfl | rfl | hq)
    · exact hc
    · exact hpo
    · exact h.pages q (Set.mem_insert_of_mem _ hq)
  -- where the kept slabs lie
  have hplace : ∀ u ∈ us, u.page % 4096 = 0 ∧ u.page ≠ p ∧ u.page ≠ cache := fun u hu => by
    have ho := h.apart.owned u (hsub.subset hu)
    exact ⟨h.aligned _ ho, fun he => hp (he ▸ ho), fun he => h.cache_new (he ▸ ho)⟩
  have hcw : ∀ k, 8 ≤ k → k ≤ 16 → load64 m₂ (cache + k) = load64 m (cache + k) := fun k h1 h2 =>
    hd.load64 fun b hb => by
      rcases hb with hb | hb | ⟨u, hu, hb⟩
      · rw [mem_page] at hb; omega
      · omega
      · have := hplace u hu; omega
  have hhw : ∀ u ∈ us, ∀ k, 8 ≤ k → k ≤ 16 →
      load64 m₂ (header u.page + k) = load64 m (header u.page + k) := fun u hu k h1 h2 => by
    have hu' := hplace u hu
    refine hd.load64 fun b hb => ?_
    unfold header
    rcases hb with hb | hb | ⟨w, hw, hb⟩
    · rw [mem_page] at hb; omega
    · omega
    · have := hplace w hw; omega
  have hnw : ∀ u ∈ us, ∀ a ∈ u.free, load64 m₂ a = load64 m a := fun u hu a ha => by
    obtain ⟨h1, h2, h3⟩ := h.slot_place (h.node_slot (mem_nodes.mpr ⟨u, hsub.subset hu, ha⟩))
    have h4 : a / 4096 * 4096 ≠ p := fun he => hp (he ▸ h1)
    refine hd.load64 fun b hb => ?_
    rcases hb with hb | hb | ⟨w, hw, hb⟩
    · rw [mem_page] at hb; omega
    · omega
    · have := hplace w hw; omega
  refine ⟨⟨?_, ?_, hch, fun u hu => ?_, fun u hu => ?_⟩, ?_, hpages, ?_, h.size_ge, h.size_le⟩
  · exact (hcw 8 le_rfl (by norm_num)).trans h.rep.size_eq
  · exact (hcw 16 (by norm_num) le_rfl).trans h.rep.max_eq
  · rcases List.mem_append.mp hu with hu | hu
    · exact (hhw u hu 8 le_rfl (by norm_num)).trans (h.rep.count u (hsub.subset hu))
    · rw [List.mem_singleton.mp hu]
      simpa [fresh] using hcount
  · rcases List.mem_append.mp hu with hu | hu
    · rw [show load64 m₂ (slabFreeHead (header u.page)) = load64 m (slabFreeHead (header u.page)) from
        hhw u hu 16 (by norm_num) le_rfl]
      exact (h.rep.free u (hsub.subset hu)).congr fun a ha => hnw u hu a ha
    · rw [List.mem_singleton.mp hu]
      exact hfree
  · exact h.apart.add (by omega) (fun q hq => (hpages q (Set.mem_insert_of_mem _ hq)).1) hp hsub
  · rintro (he | he)
    · exact hne he
    · exact h.cache_new he

theorem slots_zero (hs : 16 ≤ size) {S : Set ℕ} (hz : ∀ a ∈ page p, m a = 0)
    (hd : DiffersOn S m m₁) (hS : ∀ a ∈ S, a < p ∨ p + 4064 ≤ a) :
    ∀ j < cap size, load64 m₁ (slot size p j) = 0 := by
  intro j hj
  have hend := slot_end hj
  refine load64_eq_zero fun b hb => ?_
  have h1 := hb.1
  have h2 := hb.2
  unfold slot at h1 h2
  rw [hd b fun hS' => by have := hS b hS'; omega]
  exact hz b (mem_page.mpr (by omega))

/-- **The first slab, for buffers of any size**: only the new page and the head and the cursor of the
cache are written. -/
theorem addSlab_frame (hn : NewPage cache p) (hsize : load64 m (cacheSlabSize cache) = size)
    (hmax : load64 m (cacheMax cache) = cap size) (hcur : load64 m (cacheSlabs cache) = 0) :
    DiffersOn (growBytes cache p []) m (addSlab m cache p) ∧
      load64 (addSlab m cache p) (cacheHead cache) = header p ∧
      load64 (addSlab m cache p) (cacheSlabs cache) = header p := by
  obtain ⟨hk, hhead, hd⟩ := createSlab_first hn hcur
  have hpo := hn.page_ok
  have hc := hn.cache_ok
  have hne := hn.ne
  have hcw : ∀ k, k ≤ 16 → load64 (slabCreateSlab m cache p) (cache + k) = load64 m (cache + k) :=
    fun k hk' => hd.load64 fun b hb => by
      simp only [header, Set.mem_union, Set.mem_Ico] at hb; omega
  have hset : Setup (slabCreateSlab m cache p) size cache p :=
    ⟨hpo, hc, hne, (hcw 8 (by norm_num)).trans hsize, hk.at_cursor⟩
  have hd₂ := (init_frame hset hk.free (cap size) le_rfl).1.mono initBytes_subset
  unfold addSlab
  rw [show load64 (slabCreateSlab m cache p) (cacheMax cache) = cap size from
    (hcw 16 le_rfl).trans hmax]
  have hcw₂ : ∀ k, k ≤ 32 → load64 (initBufctls (slabCreateSlab m cache p) cache p (cap size))
      (cache + k) = load64 (slabCreateSlab m cache p) (cache + k) := fun k hk' =>
    hd₂.load64 fun b hb => by rw [mem_page] at hb; omega
  refine ⟨(hd.mono fun a ha => ?_).trans (hd₂.mono fun a ha => Or.inl ha),
    (hcw₂ 24 (by norm_num)).trans hhead, (hcw₂ 32 le_rfl).trans hk.at_cursor⟩
  rcases ha with ha | ha
  · simp only [header, Set.mem_Ico] at ha
    exact Or.inl (mem_page.mpr (by omega))
  · exact Or.inr (Or.inl ha)

/-- **The first slab** of a cache. -/
theorem addSlab_first (h : CacheInv m size cache owned [] live) (hn : NewPage cache p) (hp : p ∉ owned)
    (hz : ∀ a ∈ page p, m a = 0) (hcur : load64 m (cacheSlabs cache) = 0) :
    CacheInv (addSlab m cache p) size cache (insert p owned) [fresh size p] live ∧
      load64 (addSlab m cache p) (cacheSlabs cache) = header p ∧
      DiffersOn (growBytes cache p []) m (addSlab m cache p) := by
  obtain ⟨hdg, hhead, hcur'⟩ := addSlab_frame hn h.rep.size_eq h.rep.max_eq hcur
  obtain ⟨hk, -, hd⟩ := createSlab_first hn hcur
  have hpo := hn.page_ok
  have hc := h.cache_ok
  have hne := hn.ne
  have hcw : ∀ k, k ≤ 16 → load64 (slabCreateSlab m cache p) (cache + k) = load64 m (cache + k) :=
    fun k hk' => hd.load64 fun b hb => by
      simp only [header, Set.mem_union, Set.mem_Ico] at hb; omega
  obtain ⟨-, hnext, hcount, hfree⟩ := fresh_slab hn h.size_ge hk
    ((hcw 8 (by norm_num)).trans h.rep.size_eq)
    (slots_zero h.size_ge hz hd fun a ha => by
      simp only [header, Set.mem_union, Set.mem_Ico] at ha; omega) h.rep.max_eq
  have hadd : addSlab m cache p = initBufctls (slabCreateSlab m cache p) cache p (cap size) := by
    unfold addSlab
    rw [show load64 (slabCreateSlab m cache p) (cacheMax cache) = cap size from
      (hcw 16 le_rfl).trans h.rep.max_eq]
  rw [← hadd] at hnext hcount hfree
  refine ⟨inv_add h hn hp (List.Sublist.refl []) hdg ?_ hcount hfree, hcur', hdg⟩
  rw [hhead]
  refine .cons (by unfold header; omega) ?_
  rw [hnext]
  exact .nil

/-- **A further slab** goes behind the slab at the cursor; what followed it is lost. -/
theorem addSlab_after {pre post : List View} {v : View}
    (h : CacheInv m size cache owned (pre ++ v :: post) live) (hn : NewPage cache p) (hp : p ∉ owned)
    (hz : ∀ a ∈ page p, m a = 0) (hcur : load64 m (cacheSlabs cache) = header v.page) :
    CacheInv (addSlab m cache p) size cache (insert p owned) (pre ++ [v] ++ [fresh size p]) live ∧
      load64 (addSlab m cache p) (cacheSlabs cache) = header p ∧
      DiffersOn (growBytes cache p [v]) m (addSlab m cache p) := by
  have hv : v ∈ pre ++ v :: post := by simp
  have hvo := h.apart.owned v hv
  have hv4 := h.aligned _ hvo
  have hvp : v.page ≠ p := fun he => hp (he ▸ hvo)
  have hvc : v.page ≠ cache := fun he => h.cache_new (he ▸ hvo)
  obtain ⟨hk, hlink, hd⟩ := createSlab_after hn hv4 hvp hvc hcur
  have hpo := hn.page_ok
  have hc := h.cache_ok
  have hne := hn.ne
  have hcw : ∀ k, k ≤ 24 → load64 (slabCreateSlab m cache p) (cache + k) = load64 m (cache + k) :=
    fun k hk' => hd.load64 fun b hb => by
      simp only [header, Set.mem_union, Set.mem_Ico] at hb; omega
  have hmax : load64 (slabCreateSlab m cache p) (cacheMax cache) = cap size :=
    (hcw 16 (by norm_num)).trans h.rep.max_eq
  obtain ⟨hd₂, hnext, hcount, hfree⟩ := fresh_slab hn h.size_ge hk
    ((hcw 8 (by norm_num)).trans h.rep.size_eq)
    (slots_zero h.size_ge hz hd fun a ha => by
      simp only [header, Set.mem_union, Set.mem_Ico] at ha; omega) h.rep.max_eq
  unfold addSlab
  rw [hmax]
  have hcw₂ : ∀ k, k ≤ 32 → load64 (initBufctls (slabCreateSlab m cache p) cache p (cap size))
      (cache + k) = load64 (slabCreateSlab m cache p) (cache + k) := fun k hk' =>
    hd₂.load64 fun b hb => by rw [mem_page] at hb; omega
  have hdg : DiffersOn (growBytes cache p [v]) m
      (initBufctls (slabCreateSlab m cache p) cache p (cap size)) := by
    refine (hd.mono fun a ha => ?_).trans (hd₂.mono fun a ha => Or.inl ha)
    rcases ha with (ha | ha) | ha
    · simp only [header, Set.mem_Ico] at ha
      exact Or.inl (mem_page.mpr (by omega))
    · rw [Set.mem_Ico] at ha
      exact Or.inr (Or.inl (by omega))
    · simp only [header, Set.mem_Ico] at ha
      exact Or.inr (Or.inr ⟨v, by simp, by omega⟩)
  have hsub : (pre ++ [v]).Sublist (pre ++ v :: post) :=
    (List.singleton_sublist.mpr (List.mem_cons_self ..)).append_left _
  refine ⟨inv_add h hn hp hsub (hdg.mono ?_) ?_ hcount hfree, (hcw₂ 32 le_rfl).trans hk.at_cursor, hdg⟩
  · rintro a (ha | ha | ⟨u, hu, ha⟩)
    · exact Or.inl ha
    · exact Or.inr (Or.inl ha)
    · exact Or.inr (Or.inr ⟨u, List.mem_append_right _ hu, ha⟩)
  · rw [show load64 (initBufctls (slabCreateSlab m cache p) cache p (cap size)) (cacheHead cache) =
      load64 m (cacheHead cache) from (hcw₂ 24 (by norm_num)).trans (hcw 24 le_rfl)]
    have hch := h.rep.chain
    rw [List.map_append, List.map_cons] at hch
    rw [List.map_append, List.map_append, List.map_singleton, List.map_singleton, List.append_assoc]
    refine hch.cut (b := header p) (by unfold header; omega) ?_ hnext fun x hx => ?_
    · refine (hd₂.load64 fun b hb => ?_).trans hlink
      rw [mem_page] at hb
      unfold slabNext header
      omega
    · obtain ⟨u, hu, rfl⟩ := List.mem_map.mp hx
      have huo := h.apart.owned u (List.mem_append_left _ hu)
      have hu4 := h.aligned _ huo
      have hup : u.page ≠ p := fun he => hp (he ▸ huo)
      have huc : u.page ≠ cache := fun he => h.cache_new (he ▸ huo)
      have huv := page_unique h u (List.mem_append_left _ hu)
      refine hdg.load64 fun b hb => ?_
      unfold slabNext header
      rcases hb with hb | hb | ⟨w, hw, hb⟩
      · rw [mem_page] at hb; omega
      · omega
      · rw [List.mem_singleton.mp hw] at hb; omega

end Add

end FusionCore.Mm.SlabGrow
