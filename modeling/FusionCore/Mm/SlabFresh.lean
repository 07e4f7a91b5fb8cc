import FusionCore.Mm.SlabSpec

/-! # The slabs that growth adds, for every size of buffer

`slab_cache_create` accepts the sizes 1, 2, 4, .., 512, but a bufctl has 16 bytes. For smaller buffers the
bufctls of neighbouring buffers overlap each other and the header behind the last one.

* `threaded_iff`: the slab of a fresh page has its buffers on the free list in order, and its header as
  `slab_create_slab` wrote it, exactly for sizes from 16 on.
* `grow_keeps_iff`: `slab_cache_grow` appends its slabs to the list exactly if the list has at most
  one slab, and the pointer in the last buffer does not reach a non-zero byte into the header. -/

namespace FusionCore.Mm.SlabFresh

open FusionCore.Lib.ByteMem FusionCore.Lib.NullChain FusionCore.Lib.Runs
open FusionCore.Mm.Defs FusionCore.Mm.Phys FusionCore.Mm.Pages FusionCore.Mm.PhysPages
open FusionCore.Mm.Slab FusionCore.Mm.SlabView FusionCore.Mm.SlabRep FusionCore.Mm.SlabOps
open FusionCore.Mm.SlabGrow FusionCore.Mm.SlabLife
open FusionCore.Mm.PhysSpec (smallMap)

/-- The sizes that pass the assertions of `slab_cache_create`. -/
def Accepted (size : ℕ) : Prop := size ≤ 512 ∧ isPowerOfTwo size = true

section Sizes
variable {size p : ℕ}

theorem Accepted.pos (h : Accepted size) : 0 < size := by
  have := h.2
  unfold isPowerOfTwo at this
  simp only [Bool.and_eq_true, decide_eq_true_eq] at this
  exact this.1

theorem Accepted.cap_ge (h : Accepted size) : 7 ≤ cap size :=
  (Nat.le_div_iff_mul_le h.pos).mpr (by have := h.1; omega)

theorem Accepted.small (h : Accepted size) (hs : size < 16) :
    size = 1 ∨ size = 2 ∨ size = 4 ∨ size = 8 := by
  have h1 := h.pos
  have h2 := h.2
  interval_cases size <;> first | omega | exact absurd h2 (by decide)

theorem Accepted.last (h : Accepted size) (hs : size < 16) {n : ℕ} (hn : n + 1 = cap size) :
    slot size p n + size = p + 4056 := by
  have hcap : size * cap size = 4056 := by
    rcases h.small hs with rfl | rfl | rfl | rfl <;> rfl
  have hmul : size * (n + 1) = size * n + size := Nat.mul_succ size n
  rw [hn, hcap] at hmul
  unfold slot
  omega

end Sizes

/-! ### The bufctls of small buffers -/

section Small
variable {m : Mem} {size cache p : ℕ}

/-- **The link of the last buffer** is overwritten by the pointer of the buffer before it. -/
theorem last_link_ne_zero (h : Setup m size cache p) (hacc : Accepted size) (hs : size < 16)
    (hfree : load64 m (slabFree (header p)) = 0) {n : ℕ} (hn : n + 2 = cap size) :
    load64 (initBufctls m cache p (cap size)) (bufctlNext (slot size p (n + 1))) ≠ 0 := by
  have hp := h.page_ok
  have hpos := hacc.pos
  have hn5 := hacc.cap_ge
  have hsmall := hacc.small hs
  have hlast := hacc.last (p := p) hs (n := n + 1) (by omega)
  have hstep : slot size p (n + 1) = slot size p n + size := by
    unfold slot
    rw [Nat.mul_succ]
    omega
  obtain ⟨hd₀, hl₀⟩ := init_frame h hfree n (by omega)
  obtain ⟨hd₁, hl₁⟩ := init_frame h hfree (n + 1) (by omega)
  -- the first byte of the pointer of the last buffer but one, after its own iteration
  have hb₁ : initBufctls m cache p (n + 1) (slot size p n + 8) = UInt8.ofNat (slot size p n) := by
    have hn0 : n ≠ 0 := by omega
    have hprev : slot size p (n - 1) + size = slot size p n := by
      obtain ⟨k, rfl⟩ := Nat.exists_eq_succ_of_ne_zero hn0
      unfold slot
      rw [Nat.succ_sub_one, Nat.mul_succ]
      omega
    rw [initBufctls, slabInitBufctls_eq (h.frame (hd₀.mono initBytes_subset)) (by omega) hl₀]
    dsimp only
    rw [if_neg hn0, store64_of_not_mem (by simp only [slabFree, header, Set.mem_Ico]; omega),
      store64_of_not_mem (by simp only [bufctlNext, Set.mem_Ico]; omega), store64]
    exact (store_of_mem (i := 0) (by norm_num)).trans (by simp)
  -- the last iteration does not write it
  have hb₂ : initBufctls m cache p (n + 2) (slot size p n + 8) = UInt8.ofNat (slot size p n) := by
    rw [initBufctls, slabInitBufctls_eq (h.frame (hd₁.mono initBytes_subset)) (by omega) hl₁]
    dsimp only
    rw [if_neg (Nat.succ_ne_zero n), Nat.add_sub_cancel,
      store64_of_not_mem (by simp only [slabFree, header, Set.mem_Ico]; omega),
      store64_of_not_mem (by simp only [bufctlNext, Set.mem_Ico]; omega),
      store64_of_not_mem (by simp only [bufctlPtr, Set.mem_Ico]; omega), hb₁]
  intro h0
  rw [← hn] at h0
  have hzero := byte_of_load_eq_zero h0 (8 - size) (by omega)
  rw [show bufctlNext (slot size p (n + 1)) + (8 - size) = slot size p n + 8 by
    unfold bufctlNext; omega, hb₂] at hzero
  have hmod : slot size p n % 256 = 0 := by
    have := congrArg UInt8.toNat hzero
    simpa using this
  rcases hsmall with rfl | rfl | rfl | rfl <;> omega

/-- **The link of the header** after the loop: what the pointer of the last buffer reaches over it. -/
theorem header_link (h : Setup m size cache p) (hacc : Accepted size)
    (hfree : load64 m (slabFree (header p)) = 0) (hz : load64 m (slabNext (header p)) = 0)
    {n : ℕ} (hn : n + 1 = cap size) :
    load64 (initBufctls m cache p (cap size)) (slabNext (header p)) = slot size p n / 256 ^ size := by
  have hp := h.page_ok
  have hend := slot_end (show n < cap size by omega)
  have hlt : slot size p n < 2 ^ 64 := by unfold slot; omega
  by_cases hs : 8 ≤ size
  · -- it does not reach that far
    have hbig : slot size p n < 256 ^ size :=
      lt_of_lt_of_le hlt (le_trans (by norm_num) (Nat.pow_le_pow_right (by norm_num) hs))
    rw [Nat.div_eq_of_lt hbig]
    refine ((init_frame h hfree (cap size) le_rfl).1.load64 fun b hb => ?_).trans hz
    simp only [initBytes, Set.mem_union, Set.mem_Ico] at hb
    unfold slabNext header
    omega
  · have hlast := hacc.last (p := p) (by omega) hn
    have hcap := hacc.cap_ge
    have hn0 : n ≠ 0 := by omega
    obtain ⟨hd, hl⟩ := init_frame h hfree n (by omega)
    have hbelow : slot size p (n - 1) + size = slot size p n := by
      obtain ⟨k, rfl⟩ := Nat.exists_eq_succ_of_ne_zero hn0
      unfold slot
      rw [Nat.succ_sub_one, Nat.mul_succ]
      omega
    have hbyte : ∀ i < 8, initBufctls m cache p (cap size) (slabNext (header p) + i) =
        UInt8.ofNat (slot size p n / 256 ^ size / 256 ^ i) := by
      intro i hi
      rw [← hn, initBufctls, slabInitBufctls_eq (h.frame (hd.mono initBytes_subset)) (by omega) hl]
      dsimp only
      rw [if_neg hn0, store64_of_not_mem (by simp only [slabFree, slabNext, header, Set.mem_Ico]; omega),
        store64_of_not_mem (by simp only [bufctlNext, slabNext, header, Set.mem_Ico]; omega),
        Nat.div_div_eq_div_mul, ← pow_add]
      by_cases hi' : size + i < 8
      · rw [show slabNext (header p) + i = bufctlPtr (slot size p n) + (size + i) by
          unfold slabNext header bufctlPtr; omega, store64, store_of_mem hi']
      · have hbig : slot size p n < 256 ^ (size + i) :=
          lt_of_lt_of_le hlt (le_trans (by norm_num) (Nat.pow_le_pow_right (by norm_num) (not_lt.mp hi')))
        rw [Nat.div_eq_of_lt hbig, store64_of_not_mem (by
          simp only [bufctlPtr, slabNext, header, Set.mem_Ico]; omega)]
        refine (hd _ ?_).trans (byte_of_load_eq_zero hz i hi)
        simp only [initBytes, slabNext, header, Set.mem_union, Set.mem_Ico]
        omega
    exact (load_eq_mod hbyte).trans (Nat.mod_eq_of_lt
      (lt_of_le_of_lt (Nat.div_le_self _ _) (by norm_num at hlt ⊢; exact hlt)))

end Small

/-! ### A fresh slab -/

/-- **The free list of a fresh slab**: the buffers of the page in order, and the header as
`slab_create_slab` wrote it. -/
structure Threaded (m : Mem) (size p : ℕ) : Prop where
  list : Chain (fun a => load64 m (bufctlNext a)) (load64 m (slabFreeHead (header p)))
    ((List.range (cap size)).map (slot size p))
  next : load64 m (slabNext (header p)) = 0
  count : load64 m (slabCount (header p)) = cap size

section Fresh
variable {m : Mem} {size cache p : ℕ} {S : Set ℕ}

/-- **One iteration of the loop of `slab_cache_grow`**, once the header is hooked in: what it leaves
in the page. -/
theorem addSlab_page (hn : NewPage cache p) (hacc : Accepted size)
    (hsize : load64 m (cacheSlabSize cache) = size) (hmax : load64 m (cacheMax cache) = cap size)
    (hz : ∀ a ∈ page p, m a = 0) (hk : Hooked m (slabCreateSlab m cache p) cache p)
    (hd : DiffersOn S m (slabCreateSlab m cache p)) (hSp : ∀ a ∈ S, a < p ∨ p + 4064 ≤ a)
    (hSc : ∀ a ∈ S, a < cache + 8 ∨ cache + 24 ≤ a) :
    DiffersOn (page p) (slabCreateSlab m cache p) (addSlab m cache p) ∧
    load64 (addSlab m cache p) (slabNext (header p)) = slot size p (cap size - 1) / 256 ^ size ∧
    (Threaded (addSlab m cache p) size p ↔ 16 ≤ size) := by
  have hcw : ∀ k, 8 ≤ k → k ≤ 16 → load64 (slabCreateSlab m cache p) (cache + k) = load64 m (cache + k) :=
    fun k h1 h2 => hd.load64 fun b hb => by have := hSc b hb; omega
  have hadd : addSlab m cache p = initBufctls (slabCreateSlab m cache p) cache p (cap size) := by
    unfold addSlab
    rw [show load64 (slabCreateSlab m cache p) (cacheMax cache) = cap size from
      (hcw 16 (by norm_num) le_rfl).trans hmax]
  have hset : Setup (slabCreateSlab m cache p) size cache p :=
    ⟨hn.page_ok, hn.cache_ok, hn.ne, (hcw 8 le_rfl (by norm_num)).trans hsize, hk.at_cursor⟩
  have hcap := hacc.cap_ge
  rw [hadd]
  refine ⟨(init_frame hset hk.free (cap size) le_rfl).1.mono initBytes_subset,
    header_link hset hacc hk.free hk.next (by omega), fun ht => ?_, fun hs => ?_⟩
  · -- the last buffer has a link
    by_contra hs
    have hcut : cap size = cap size - 2 + 1 + 1 := by omega
    have hlist := ht.list
    rw [hcut, List.range_succ, List.map_append, List.map_singleton] at hlist
    exact last_link_ne_zero hset hacc (by omega) hk.free (n := cap size - 2) (by omega)
      (by rw [hcut]; exact hlist.last_link)
  · have hslots := slots_zero hs hz hd hSp
    obtain ⟨-, hnext, hcount, hlist⟩ := fresh_slab hn hs hk hset.size_eq hslots hmax
    exact ⟨hlist, hnext, hcount⟩

/-- The cursor is NULL or at the slab of another page. -/
def CursorOff (m : Mem) (cache p : ℕ) : Prop :=
  load64 m (cacheSlabs cache) = 0 ∨
    ∃ c, c % 4096 = 0 ∧ c ≠ p ∧ c ≠ cache ∧ load64 m (cacheSlabs cache) = header c

theorem addSlab_threaded (hn : NewPage cache p) (hacc : Accepted size)
    (hsize : load64 m (cacheSlabSize cache) = size) (hmax : load64 m (cacheMax cache) = cap size)
    (hz : ∀ a ∈ page p, m a = 0) (hcur : CursorOff m cache p) :
    load64 (addSlab m cache p) (cacheSlabs cache) = header p ∧
      (Threaded (addSlab m cache p) size p ↔ 16 ≤ size) := by
  have hp := hn.page_ok
  have hc := hn.cache_ok
  have hne := hn.ne
  have hend : ∀ {S : Set ℕ}, Hooked m (slabCreateSlab m cache p) cache p →
      DiffersOn S m (slabCreateSlab m cache p) → (∀ a ∈ S, a < p ∨ p + 4064 ≤ a) →
      (∀ a ∈ S, a < cache + 8 ∨ cache + 24 ≤ a) →
      load64 (addSlab m cache p) (cacheSlabs cache) = header p ∧
        (Threaded (addSlab m cache p) size p ↔ 16 ≤ size) := by
    intro S hk hd hSp hSc
    obtain ⟨hd₂, -, ht⟩ := addSlab_page hn hacc hsize hmax hz hk hd hSp hSc
    refine ⟨(hd₂.load64 fun b hb => ?_).trans hk.at_cursor, ht⟩
    rw [mem_page] at hb
    unfold cacheSlabs
    omega
  rcases hcur with hcur | ⟨c, hc4, hcp, hcc, hcur⟩
  · obtain ⟨hk, -, hd⟩ := createSlab_first hn hcur
    refine hend hk hd (fun a ha => ?_) fun a ha => ?_ <;>
      (simp only [header, Set.mem_union, Set.mem_Ico] at ha; omega)
  · obtain ⟨hk, -, hd⟩ := createSlab_after hn hc4 hcp hcc hcur
    refine hend hk hd (fun a ha => ?_) fun a ha => ?_ <;>
      (simp only [header, Set.mem_union, Set.mem_Ico] at ha; omega)

end Fresh

/-! ### Caches of any size of buffer -/

/-- **A cache with the slabs of the pages `L`**: its record, and the list from `slabs_head` on. The
pages are handed out. -/
structure Listed (m : Mem) (size cache : ℕ) (H : Set ℕ) (L : List ℕ) : Prop where
  size_eq : load64 m (cacheSlabSize cache) = size
  max_eq : load64 m (cacheMax cache) = cap size
  list : Chain (fun a => load64 m (slabNext a)) (load64 m (cacheHead cache)) (L.map header)
  cache_mem : cache ∈ H
  slabs_mem : ∀ p ∈ L, p ∈ H ∧ p ≠ cache

section Grow
variable {σ : Type} {A : PageSource σ} {arena : Set ℕ} {Good : Machine σ → Set ℕ → Prop}
  {s s' : Machine σ} {H : Set ℕ} {size cache p n : ℕ} {L : List ℕ} {flags : SlabFlags}
  (hL : Lawful A arena Good)
include hL

theorem rewound (flags : SlabFlags) (n : ℕ) (hG : Good s H) (h : Listed s.mem size cache H L) :
    let m := store64 s.mem (cacheSlabs cache) (load64 s.mem (cacheHead cache))
    slabCacheGrow A flags cache n s = growLoop A flags cache n { s with mem := m } ∧
    Good { s with mem := m } H ∧ Listed m size cache H L ∧
    load64 m (cacheSlabs cache) = load64 m (cacheHead cache) ∧ DiffersOn (cursor cache) s.mem m := by
  intro m
  have hc := hL.pages (hL.handed hG h.cache_mem)
  have hd : DiffersOn (cursor cache) s.mem m := differsOn_store64 (DiffersOn.refl _ _) fun _ hb => hb
  have hk : ∀ k, k ≤ 24 → load64 m (cache + k) = load64 s.mem (cache + k) := fun k hk =>
    load64_store64_of_disjoint (by unfold cacheSlabs; omega)
  have hhead : load64 m (cacheHead cache) = load64 s.mem (cacheHead cache) := hk 24 le_rfl
  refine ⟨by rw [slabCacheGrow, if_neg hc.2.1], SlabReap.good_cursor hL hG (hL.handed hG h.cache_mem) hd,
    ⟨(hk 8 (by norm_num)).trans h.size_eq, (hk 16 (by norm_num)).trans h.max_eq, ?_, h.cache_mem,
      h.slabs_mem⟩, (load64_store64 (load64_lt _ _)).trans hhead.symm, hd⟩
  rw [hhead]
  refine h.list.congr fun a ha => ?_
  obtain ⟨q, hq, rfl⟩ := List.mem_map.mp ha
  have hq4 := hL.pages (hL.handed hG (h.slabs_mem q hq).1)
  have hqc := (h.slabs_mem q hq).2
  exact load64_store64_of_disjoint (by unfold cacheSlabs slabNext header; omega)

theorem cursorOff_of_head {m : Mem} (hG : Good s H) (h : Listed m size cache H L)
    (hcur : load64 m (cacheSlabs cache) = load64 m (cacheHead cache)) (hp : p ∉ H) :
    CursorOff m cache p := by
  have hlist := h.list
  cases L with
  | nil => exact Or.inl (hcur.trans (chain_nil_iff.mp hlist))
  | cons c L =>
    obtain ⟨hc, hcc⟩ := h.slabs_mem c (by simp)
    obtain ⟨hhead, -, -⟩ := chain_cons_iff.mp hlist
    exact Or.inr ⟨c, (hL.pages (hL.handed hG hc)).1, fun he => hp (he ▸ hc), hcc, hcur.trans hhead⟩

omit hL in
theorem listed_samePages {m m' : Mem} (h : Listed m size cache H L) (hs : SamePages H m m') :
    Listed m' size cache H L ∧ load64 m' (cacheSlabs cache) = load64 m (cacheSlabs cache) ∧
      load64 m' (cacheHead cache) = load64 m (cacheHead cache) := by
  have hk : ∀ k, k ≤ 32 → load64 m' (cache + k) = load64 m (cache + k) := fun k hk =>
    load64_congr fun b hb => hs cache h.cache_mem <| by
      simp only [Set.mem_Ico, mem_page] at hb ⊢; omega
  refine ⟨⟨(hk 8 (by norm_num)).trans h.size_eq, (hk 16 (by norm_num)).trans h.max_eq, ?_, h.cache_mem,
    h.slabs_mem⟩, hk 32 le_rfl, hk 24 (by norm_num)⟩
  rw [show load64 m' (cacheHead cache) = load64 m (cacheHead cache) from hk 24 (by norm_num)]
  refine h.list.congr fun a ha => ?_
  obtain ⟨q, hq, rfl⟩ := List.mem_map.mp ha
  refine load64_congr fun b hb => hs q (h.slabs_mem q hq).1 ?_
  simp only [slabNext, header, Set.mem_Ico, mem_page] at hb ⊢
  omega

theorem good_write {m : Mem} (hG : Good s H) (hd : DiffersOn {a | ∃ q ∈ H, a ∈ page q} s.mem m) :
    Good { s with mem := m } H :=
  hL.write hG fun a ha => hd a fun ⟨q, hq, haq⟩ => ha q (hL.handed hG hq) haq

theorem newPage_of_good (hG : Good s (insert p H)) (hc : cache ∈ H) (hp : p ∉ H) : NewPage cache p :=
  ⟨hL.pages (hL.handed hG (Set.mem_insert _ _)),
    (hL.pages (hL.handed hG (Set.mem_insert_of_mem _ hc))).1, fun he => hp (he ▸ hc)⟩

/-- **The free list of a new slab.** While the source has a page, `slab_cache_grow` adds a slab of a fresh
page; its buffers are on the free list in order, and its header is not altered, exactly if a bufctl
fits in a buffer. -/
theorem threaded_iff (flags : SlabFlags) (hG : Good s H) (h : Listed s.mem size cache H L)
    (hacc : Accepted size) (hmore : ¬ Exhausted A Good H) :
    ∃ s' p, slabCacheGrow A flags cache 1 s = .ok s' ∧ p ∉ H ∧
      load64 s'.mem (cacheSlabs cache) = header p ∧ (Threaded s'.mem size p ↔ 16 ≤ size) := by
  obtain ⟨heq, hG₁, h₁, hcur₁, -⟩ := rewound hL flags 1 hG h
  rcases slabCreateBufctl_spec hL hG₁ with ⟨-, -, -, -, hex⟩ | ⟨p, s₂, hp0, hr, hp, hz, hs₂, hG₂⟩
  · exact absurd hex hmore
  · obtain ⟨h₂, hcur₂, hhead₂⟩ := listed_samePages h₁ hs₂
    have hcur : load64 s₂.mem (cacheSlabs cache) = load64 s₂.mem (cacheHead cache) :=
      hcur₂.trans (hcur₁.trans hhead₂.symm)
    obtain ⟨h1, h2⟩ := addSlab_threaded (newPage_of_good hL hG₂ h.cache_mem hp) hacc
      h₂.size_eq h₂.max_eq hz
      (cursorOff_of_head hL hG h₂ hcur hp)
    rw [heq, growLoop_got hr hp0, growLoop]
    generalize addSlab s₂.mem cache p = M at h1 h2 ⊢
    exact ⟨_, p, rfl, hp, h1, h2⟩

theorem create_threaded (flags : SlabFlags) (name : ℕ) (hG : Good s H) (hacc : Accepted size)
    (h0 : (A.allocz s).1 = cache) (hc0 : cache ≠ 0) (hmore : ¬ Exhausted A Good (insert cache H)) :
    ∃ s' p, slabCacheCreate A flags name size s = .ok (cache, s') ∧
      load64 s'.mem (cacheSlabs cache) = header p ∧ (Threaded s'.mem size p ↔ 16 ≤ size) := by
  subst h0
  obtain ⟨heq, hG₁, hd₁, hsize₁, hmax₁, hcur₁⟩ := create_loop hL flags name hacc.1 hacc.2 hG hc0
  rw [heq]
  generalize blankCache (A.allocz s).2.mem (A.allocz s).1 name size = m₁ at *
  rcases slabCreateBufctl_spec hL hG₁ with ⟨-, -, -, -, hex⟩ | ⟨p, s₂, hp0, hr, hp, hz, hs₂, hG₂⟩
  · exact absurd hex hmore
  · have hk : ∀ k, k ≤ 32 → load64 s₂.mem ((A.allocz s).1 + k) = load64 m₁ ((A.allocz s).1 + k) :=
      fun k hk => load64_congr fun b hb => hs₂ _ (Set.mem_insert _ _) <| by
        simp only [Set.mem_Ico, mem_page] at hb ⊢; omega
    obtain ⟨h1, h2⟩ := addSlab_threaded (newPage_of_good hL hG₂ (Set.mem_insert _ _) hp) hacc
      ((hk 8 (by norm_num)).trans hsize₁) ((hk 16 (by norm_num)).trans hmax₁) hz
      (Or.inl ((hk 32 le_rfl).trans hcur₁))
    rw [growLoop_got hr hp0, growLoop]
    generalize addSlab s₂.mem (A.allocz s).1 p = M at h1 h2 ⊢
    exact ⟨_, p, rfl, h1, h2⟩

end Grow

theorem listed_of_owns {σ : Type} {Good : Machine σ → Set ℕ → Prop} {s : Machine σ} {H owned : Set ℕ}
    {size cache : ℕ} {vs : List View} {live : List ℕ} (h : Owns Good s H size cache owned vs live) :
    Listed s.mem size cache H (vs.map View.page) := by
  refine ⟨h.inv.rep.size_eq, h.inv.rep.max_eq, ?_, h.handed (Set.mem_insert _ _), fun p hp => ?_⟩
  · rw [List.map_map]
    exact h.inv.rep.chain
  · obtain ⟨v, hv, rfl⟩ := List.mem_map.mp hp
    have ho := h.inv.apart.owned v hv
    exact ⟨h.handed (Set.mem_insert_of_mem _ ho), fun he => h.inv.cache_new (he ▸ ho)⟩

theorem threaded_iff_small : ∃ t t' p, slabCacheCreate pmmSource
    ⟨true, false⟩ 0 512 booted = .ok (8192, t) ∧
    slabCacheGrow pmmSource ⟨true, false⟩ 8192 1 t = .ok t' ∧ Threaded t'.mem 512 p := by
  obtain ⟨t, a, hnew, h⟩ := SlabSpec.small_cache
  have hcard : ({8192, a} : Finset ℕ).card ≤ 2 := Finset.card_le_two
  have hmore : ¬ Exhausted pmmSource (Handed smallMap) {8192, a} := fun hex =>
    SlabSpec.small_not_short {8192, a} (n := 1) (by omega) [] ⟨by norm_num, by simpa using hex⟩
  obtain ⟨t', p, hok, -, -, ht⟩ := threaded_iff smallMap_lawful ⟨true, false⟩ h.good (listed_of_owns h)
    ⟨le_rfl, by decide⟩ hmore
  exact ⟨t, t', p, hnew, hok, ht.mpr (by norm_num)⟩

/-- In a cache with buffers of 8 bytes the link of the last buffer of the slab is not NULL. -/
theorem eight_byte_slab : ∃ t p, slabCacheCreate pmmSource ⟨true, false⟩ 0 8 booted = .ok (8192, t) ∧
    load64 t.mem (cacheSlabs 8192) = header p ∧ ¬ Threaded t.mem 8 p := by
  have hmore : ¬ Exhausted pmmSource (Handed smallMap) (insert 8192 ∅) := by
    rintro ⟨s, hG, h0⟩
    exact smallMap_serves (F := {8192}) (by simpa using hG) (by simp) h0
  obtain ⟨t, p, hok, hcur, ht⟩ := create_threaded smallMap_lawful ⟨true, false⟩ 0 handed_booted
    (show Accepted 8 from ⟨by norm_num, by decide⟩) (by decide +kernel) (by norm_num) hmore
  exact ⟨t, p, hok, hcur, fun h => absurd (ht.mp h) (by norm_num)⟩

/-! ### Growth of the list -/

section Link
variable {m : Mem} {size cache p c : ℕ}

/-- **One iteration behind the slab of `c`**: its link is the new slab, and of the other pages only the
cursor is written. -/
theorem addSlab_link (hn : NewPage cache p) (hacc : Accepted size)
    (hsize : load64 m (cacheSlabSize cache) = size) (hmax : load64 m (cacheMax cache) = cap size)
    (hz : ∀ a ∈ page p, m a = 0) (hc4 : c % 4096 = 0) (hcp : c ≠ p) (hcc : c ≠ cache)
    (hcur : load64 m (cacheSlabs cache) = header c) :
    load64 (addSlab m cache p) (slabNext (header c)) = header p ∧
    load64 (addSlab m cache p) (cacheSlabs cache) = header p ∧
    load64 (addSlab m cache p) (slabNext (header p)) = slot size p (cap size - 1) / 256 ^ size ∧
    DiffersOn (page p ∪ (cursor cache ∪ Set.Ico (header c) (header c + 8))) m (addSlab m cache p) := by
  have hp := hn.page_ok
  have hc := hn.cache_ok
  have hne := hn.ne
  obtain ⟨hk, hlink, hd⟩ := createSlab_after hn hc4 hcp hcc hcur
  obtain ⟨hd₂, hnext, -⟩ := addSlab_page hn hacc hsize hmax hz hk hd
    (fun a ha => by simp only [header, Set.mem_union, Set.mem_Ico] at ha; omega)
    (fun a ha => by simp only [header, Set.mem_union, Set.mem_Ico] at ha; omega)
  refine ⟨(hd₂.load64 fun b hb => ?_).trans hlink, (hd₂.load64 fun b hb => ?_).trans hk.at_cursor, hnext,
    (hd.mono fun a ha => ?_).trans (hd₂.mono Set.subset_union_left)⟩
  · rw [mem_page] at hb
    unfold slabNext header
    omega
  · rw [mem_page] at hb
    unfold cacheSlabs
    omega
  · rcases ha with (ha | ha) | ha
    · simp only [header, Set.mem_Ico] at ha
      exact Or.inl (mem_page.mpr (by omega))
    · exact Or.inr (Or.inl ha)
    · exact Or.inr (Or.inr ha)

/-- The link of the last slab after growth behind `c` by the pages `ps`. -/
def endLink (m : Mem) (size c : ℕ) (ps : List ℕ) : ℕ :=
  match ps.getLast? with
  | none => load64 m (slabNext (header c))
  | some p => slot size p (cap size - 1) / 256 ^ size

theorem endLink_cons {m' : Mem} {ps : List ℕ}
    (h : load64 m' (slabNext (header p)) = slot size p (cap size - 1) / 256 ^ size) :
    endLink m' size p ps = endLink m size c (p :: ps) := by
  cases ps with
  | nil => simpa [endLink] using h
  | cons q ps =>
    have hlast := List.getLast?_eq_some_getLast (List.cons_ne_nil q ps)
    simp only [endLink, List.getLast?_cons_cons, hlast]

end Link

/-- **What growth by the pages `ps` keeps**: of the pages handed out before, all but the record of
the cache and the links of the slabs. -/
structure Appended {σ : Type} (Good : Machine σ → Set ℕ → Prop) (s s' : Machine σ) (H : Set ℕ)
    (cache : ℕ) (ps : List ℕ) : Prop where
  good : Good s' (H ∪ {q | q ∈ ps})
  new : ∀ p ∈ ps, p ∉ H
  kept : ∀ q ∈ H, q ≠ cache → ∀ a ∈ page q, a < q + 4064 ∨ q + 4072 ≤ a → s'.mem a = s.mem a

section Append
variable {σ : Type} {A : PageSource σ} {arena : Set ℕ} {Good : Machine σ → Set ℕ → Prop}
  {s s' : Machine σ} {H : Set ℕ} {size cache p c : ℕ} {L : List ℕ}
  (hL : Lawful A arena Good)
include hL

omit hL in
theorem Appended.cons {s₂ : Machine σ} {ps : List ℕ} (h : Appended Good s₂ s' (insert p H) cache ps)
    (hp : p ∉ H) (hk : ∀ q ∈ H, q ≠ cache → ∀ a ∈ page q,
      a < q + 4064 ∨ q + 4072 ≤ a → s₂.mem a = s.mem a) : Appended Good s s' H cache (p :: ps) := by
  refine ⟨?_, fun q hq => ?_, fun q hq hqc a ha hak => ?_⟩
  · have := h.good
    rwa [insert_union_pages] at this
  · rcases List.mem_cons.mp hq with rfl | hq
    · exact hp
    · exact fun hq' => h.new q hq (Set.mem_insert_of_mem _ hq')
  · exact (h.kept q (Set.mem_insert_of_mem _ hq) hqc a ha hak).trans (hk q hq hqc a ha hak)

/-- **One iteration** with the cursor at the slab of `c`: the slab of the new page `p` is behind it,
with the cursor there, and of the pages handed out before only those two records have changed. -/
theorem addSlab_step {s₁ : Machine σ} (hacc : Accepted size) (hG : Good s H) (hG₁ : Good s₁ (insert p H))
    (hs₁ : SamePages H s.mem s₁.mem) (hz : ∀ a ∈ page p, s₁.mem a = 0) (hp : p ∉ H)
    (hsize : load64 s.mem (cacheSlabSize cache) = size) (hmax : load64 s.mem (cacheMax cache) = cap size)
    (hcH : cache ∈ H) (hc : c ∈ H ∧ c ≠ cache) (hcur : load64 s.mem (cacheSlabs cache) = header c) :
    Good { s₁ with mem := addSlab s₁.mem cache p } (insert p H) ∧
    (∀ k ≤ 24, load64 (addSlab s₁.mem cache p) (cache + k) = load64 s.mem (cache + k)) ∧
    (∀ q ∈ H, q ≠ cache → ∀ a ∈ page q, q ≠ c ∨ a < q + 4064 ∨ q + 4072 ≤ a →
      addSlab s₁.mem cache p a = s.mem a) ∧
    load64 (addSlab s₁.mem cache p) (slabNext (header c)) = header p ∧
    load64 (addSlab s₁.mem cache p) (cacheSlabs cache) = header p ∧
    load64 (addSlab s₁.mem cache p) (slabNext (header p)) = slot size p (cap size - 1) / 256 ^ size := by
  have hn := newPage_of_good hL hG₁ hcH hp
  have hpo := hn.page_ok
  have hc4 := hn.cache_ok
  have hne := hn.ne
  have hce := hL.pages (hL.handed hG hc.1)
  have hcp : c ≠ p := fun he => hp (he ▸ hc.1)
  have hw : ∀ k ≤ 32, load64 s₁.mem (cache + k) = load64 s.mem (cache + k) := fun k hk =>
    load64_congr fun b hb => hs₁ cache hcH <| by
      simp only [Set.mem_Ico, mem_page] at hb ⊢; omega
  obtain ⟨hlink, hcur₂, hend, hd⟩ := addSlab_link hn hacc ((hw 8 (by norm_num)).trans hsize)
    ((hw 16 (by norm_num)).trans hmax) hz hce.1 hcp hc.2 ((hw 32 le_rfl).trans hcur)
  refine ⟨good_write hL hG₁ (hd.mono ?_), fun k hk => ?_, fun q hq hqc a ha hak => ?_, hlink, hcur₂, hend⟩
  · rintro a (ha | ha | ha)
    · exact ⟨p, Set.mem_insert _ _, ha⟩
    · simp only [cursor, cacheSlabs, Set.mem_Ico] at ha
      exact ⟨cache, Set.mem_insert_of_mem _ hcH, mem_page.mpr (by omega)⟩
    · simp only [header, Set.mem_Ico] at ha
      exact ⟨c, Set.mem_insert_of_mem _ hc.1, mem_page.mpr (by omega)⟩
  · refine (hd.load64 fun b hb => ?_).trans (hw k (by omega))
    simp only [cursor, cacheSlabs, header, Set.mem_union, mem_page, Set.mem_Ico] at hb
    omega
  · have hq4 := hL.pages (hL.handed hG hq)
    have hqp : q ≠ p := fun he => hp (he ▸ hq)
    refine (hd a fun hb => ?_).trans (hs₁ q hq ha)
    simp only [cursor, cacheSlabs, header, Set.mem_union, mem_page, Set.mem_Ico] at hb ha
    omega

/-- **The loop of `slab_cache_grow`** with the cursor at the slab of `c`, behind the slabs of `pre`. -/
theorem growLoop_path (flags : SlabFlags) (hacc : Accepted size) (n : ℕ) (pre : List ℕ) (hG : Good s H)
    (hsize : load64 s.mem (cacheSlabSize cache) = size) (hmax : load64 s.mem (cacheMax cache) = cap size)
    (hcH : cache ∈ H) (hpre : ∀ q ∈ pre ++ [c], q ∈ H ∧ q ≠ cache) (hc : c ∉ pre)
    (hpath : Path (fun a => load64 s.mem (slabNext a)) (load64 s.mem (cacheHead cache)) (pre.map header)
      (header c))
    (hcur : load64 s.mem (cacheSlabs cache) = header c) (hmore : ∀ ps, ¬ Short A Good H n ps) :
    ∃ s' ps, growLoop A flags cache n s = .ok s' ∧ ps.length = n ∧ Appended Good s s' H cache ps ∧
      Path (fun a => load64 s'.mem (slabNext a)) (load64 s'.mem (cacheHead cache))
        ((pre ++ c :: ps).map header) (endLink s.mem size c ps) ∧
      load64 s'.mem (cacheSlabs cache) = header (ps.getLastD c) := by
  induction n generalizing s H pre c with
  | zero =>
    refine ⟨s, [], rfl, rfl, ⟨by simpa using hG, by simp, fun _ _ _ _ _ _ => rfl⟩, ?_, hcur⟩
    rw [List.map_append]
    exact hpath.snoc (by unfold header; omega)
  | succ n ih =>
    rcases slabCreateBufctl_spec hL hG with ⟨-, -, -, -, hex⟩ | ⟨p, s₁, hp0, hr, hp, hz, hs₁, hG₁⟩
    · exact absurd ⟨Nat.succ_pos n, by simpa using hex⟩ (hmore [])
    obtain ⟨hG₂, hcw, hkept, hlink, hcur₂, hend⟩ := addSlab_step hL hacc hG hG₁ hs₁ hz hp hsize hmax hcH
      (hpre c (by simp)) hcur
    rw [growLoop_got hr hp0]
    generalize addSlab s₁.mem cache p = M at hG₂ hcw hkept hlink hcur₂ hend ⊢
    have hpath₂ : Path (fun a => load64 M (slabNext a)) (load64 M (cacheHead cache))
        ((pre ++ [c]).map header) (header p) := by
      rw [show load64 M (cacheHead cache) = load64 s.mem (cacheHead cache) from hcw 24 le_rfl, ← hlink,
        List.map_append]
      refine Path.snoc (hpath.congr fun x hx => ?_) (by unfold header; omega)
      obtain ⟨q, hq, rfl⟩ := List.mem_map.mp hx
      obtain ⟨hqH, hqc⟩ := hpre q (List.mem_append_left _ hq)
      refine load64_congr fun b hb => hkept q hqH hqc b ?_ (Or.inl fun he => hc (he ▸ hq))
      simp only [slabNext, header, Set.mem_Ico, mem_page] at hb ⊢
      omega
    have hpre₂ : ∀ q ∈ pre ++ [c] ++ [p], q ∈ insert p H ∧ q ≠ cache := by
      intro q hq
      rcases List.mem_append.mp hq with hq | hq
      · exact ⟨Set.mem_insert_of_mem _ (hpre q hq).1, (hpre q hq).2⟩
      · rw [List.mem_singleton.mp hq]
        exact ⟨Set.mem_insert _ _, fun he => hp (he ▸ hcH)⟩
    obtain ⟨s', ps, hok, hlen, happ, hp', hcur'⟩ := ih (pre ++ [c]) hG₂
      ((hcw 8 (by norm_num)).trans hsize) ((hcw 16 (by norm_num)).trans hmax)
        (Set.mem_insert_of_mem _ hcH)
      hpre₂ (fun hm => hp (hpre p hm).1) hpath₂ hcur₂ fun ps hs => hmore (p :: ps) hs.cons
    refine ⟨s', p :: ps, hok, by simp [hlen], happ.cons hp fun q hq hqc a ha hak =>
      hkept q hq hqc a ha (Or.inr hak), ?_, ?_⟩
    · rw [← endLink_cons (m := s.mem) (c := c) hend]
      simpa using hp'
    · rw [List.getLastD_cons]
      exact hcur'

theorem Appended.of_cursor {m : Mem} {ps : List ℕ} (hG : Good s H) (hcH : cache ∈ H)
    (hd : DiffersOn (cursor cache) s.mem m) (h : Appended Good { s with mem := m } s' H cache ps) :
    Appended Good s s' H cache ps := by
  refine ⟨h.good, h.new, fun q hq hqc a ha hak => (h.kept q hq hqc a ha hak).trans (hd a fun hb => ?_)⟩
  have hq4 := hL.pages (hL.handed hG hq)
  have hc4 := hL.pages (hL.handed hG hcH)
  simp only [cursor, cacheSlabs, Set.mem_Ico, mem_page] at hb ha
  omega

theorem growLoop_empty (flags : SlabFlags) (hacc : Accepted size) (n : ℕ) (hG : Good s H)
    (h : Listed s.mem size cache H []) (hcur : load64 s.mem (cacheSlabs cache) = 0)
    (hmore : ∀ ps, ¬ Short A Good H (n + 1) ps) :
    ∃ s' p ps, growLoop A flags cache (n + 1) s = .ok s' ∧ ps.length = n ∧
      Appended Good s s' H cache (p :: ps) ∧
      Path (fun a => load64 s'.mem (slabNext a)) (load64 s'.mem (cacheHead cache))
        ((p :: ps).map header) (endLink s.mem size 0 (p :: ps)) ∧
      load64 s'.mem (cacheSlabs cache) = header (ps.getLastD p) := by
  rcases slabCreateBufctl_spec hL hG with ⟨-, -, -, -, hex⟩ | ⟨p, s₁, hp0, hr, hp, hz, hs₁, hG₁⟩
  · exact absurd ⟨Nat.succ_pos n, by simpa using hex⟩ (hmore [])
  obtain ⟨h₁, hcur₁, -⟩ := listed_samePages h hs₁
  have hn := newPage_of_good hL hG₁ h.cache_mem hp
  have hpo := hn.page_ok
  have hc4 := hn.cache_ok
  have hne := hn.ne
  obtain ⟨hk, -, hd₀⟩ := createSlab_first hn (hcur₁.trans hcur)
  obtain ⟨-, hend, -⟩ := addSlab_page hn hacc h₁.size_eq h₁.max_eq hz hk hd₀
    (fun a ha => by simp only [header, Set.mem_union, Set.mem_Ico] at ha; omega)
    (fun a ha => by simp only [header, Set.mem_union, Set.mem_Ico] at ha; omega)
  obtain ⟨hd, hhead, hcur₂⟩ := addSlab_frame hn h₁.size_eq h₁.max_eq (hcur₁.trans hcur)
  rw [growLoop_got hr hp0]
  generalize addSlab s₁.mem cache p = M at hend hd hhead hcur₂ ⊢
  have hbytes : ∀ a ∈ growBytes cache p [], a ∈ page p ∨ (cache + 24 ≤ a ∧ a < cache + 40) := by
    rintro a (ha | ha | ⟨u, hu, -⟩)
    · exact Or.inl ha
    · exact Or.inr ha
    · cases hu
  have hcw : ∀ k, k ≤ 16 → load64 M (cache + k) = load64 s₁.mem (cache + k) := fun k hk =>
    hd.load64 fun b hb => by
      have hb := hbytes b hb
      rw [mem_page] at hb
      omega
  have hG₂ : Good { s₁ with mem := M } (insert p H) := by
    refine good_write hL hG₁ (hd.mono fun a ha => ?_)
    rcases hbytes a ha with ha | ha
    · exact ⟨p, Set.mem_insert _ _, ha⟩
    · exact ⟨cache, Set.mem_insert_of_mem _ h.cache_mem, mem_page.mpr (by omega)⟩
  obtain ⟨s', ps, hok, hlen, happ, hpath, hcur'⟩ := growLoop_path hL flags hacc n [] hG₂
    ((hcw 8 (by norm_num)).trans h₁.size_eq) ((hcw 16 le_rfl).trans h₁.max_eq)
    (Set.mem_insert_of_mem _ h.cache_mem)
    (fun q hq => by rw [List.mem_singleton.mp hq]; exact ⟨Set.mem_insert _ _, hn.ne.symm⟩)
    List.not_mem_nil (by rw [hhead]; exact .nil) hcur₂ fun ps hs => hmore (p :: ps) hs.cons
  refine ⟨s', p, ps, hok, hlen, happ.cons hp fun q hq hqc a ha hak => ?_, ?_, hcur'⟩
  · have hq4 := hL.pages (hL.handed hG hq)
    have hqp : q ≠ p := fun he => hp (he ▸ hq)
    refine (hd a fun hb => ?_).trans (hs₁ q hq ha)
    have hb := hbytes a hb
    rw [mem_page] at hb ha
    omega
  · rw [← endLink_cons (m := s.mem) (c := 0) hend]
    exact hpath

/-- **`slab_cache_grow`** of a cache with buffers of any size: the new slabs follow the first one, and the
last has the link that its last buffer leaves. -/
theorem grow_path (flags : SlabFlags) (hacc : Accepted size) (n : ℕ) (hG : Good s H)
    (h : Listed s.mem size cache H L) (hmore : ∀ ps, ¬ Short A Good H n ps) :
    ∃ s' ps, slabCacheGrow A flags cache n s = .ok s' ∧ ps.length = n ∧ Appended Good s s' H cache ps ∧
      (n = 0 → Chain (fun a => load64 s'.mem (slabNext a)) (load64 s'.mem (cacheHead cache))
        (L.map header)) ∧
      (n ≠ 0 → ∃ q, ps.getLast? = some q ∧ load64 s'.mem (cacheSlabs cache) = header q ∧
        Path (fun a => load64 s'.mem (slabNext a)) (load64 s'.mem (cacheHead cache))
          ((L.take 1 ++ ps).map header) (slot size q (cap size - 1) / 256 ^ size)) := by
  obtain ⟨heq, hG₁, h₁, hcur₁, hd₁⟩ := rewound hL flags n hG h
  rw [heq]
  generalize store64 s.mem (cacheSlabs cache) (load64 s.mem (cacheHead cache)) = m₁ at hG₁ h₁ hcur₁ hd₁ ⊢
  have hlist := h₁.list
  -- the last of the new pages
  have hlast : ∀ {c : ℕ} {ps : List ℕ}, ps ≠ [] → ∃ q, ps.getLast? = some q ∧ ps.getLastD c = q ∧
      ∀ m c', endLink m size c' ps = slot size q (cap size - 1) / 256 ^ size := by
    intro c ps hps
    have hq := List.getLast?_eq_some_getLast hps
    refine ⟨_, hq, by rw [List.getLastD_eq_getLast?, hq, Option.getD_some], fun m c' => ?_⟩
    simp only [endLink, hq]
  cases n with
  | zero =>
    exact ⟨_, [], rfl, rfl, .of_cursor hL hG h.cache_mem hd₁
      ⟨by simpa using hG₁, by simp, fun _ _ _ _ _ _ => rfl⟩, fun _ => hlist, fun h => absurd rfl h⟩
  | succ n =>
    cases L with
    | nil =>
      obtain ⟨s', p, ps, hok, hlen, happ, hpath, hcur'⟩ := growLoop_empty hL flags hacc n hG₁ h₁
        (hcur₁.trans (chain_nil_iff.mp hlist)) hmore
      obtain ⟨q, hq, hqD, hend⟩ := hlast (c := 0) (List.cons_ne_nil p ps)
      refine ⟨s', p :: ps, hok, by simp [hlen], .of_cursor hL hG h.cache_mem hd₁ happ,
        fun h => absurd h (Nat.succ_ne_zero n), fun _ => ⟨q, hq, ?_, ?_⟩⟩
      · rw [hcur', ← hqD, List.getLastD_cons]
      · rw [← hend]
        exact hpath
    | cons c L =>
      obtain ⟨hhead, -, -⟩ := chain_cons_iff.mp hlist
      obtain ⟨s', ps, hok, hlen, happ, hpath, hcur'⟩ := growLoop_path hL flags hacc (n + 1) [] hG₁
        h₁.size_eq h₁.max_eq h.cache_mem
        (fun q hq => by rw [List.mem_singleton.mp hq]; exact h.slabs_mem c (by simp))
        List.not_mem_nil (by rw [hhead]; exact .nil) (hcur₁.trans hhead) hmore
      have hps : ps ≠ [] := by
        rintro rfl
        cases hlen
      obtain ⟨q, hq, hqD, hend⟩ := hlast (c := c) hps
      refine ⟨s', ps, hok, hlen, .of_cursor hL hG h.cache_mem hd₁ happ,
        fun h => absurd h (Nat.succ_ne_zero n), fun _ => ⟨q, hq, ?_, ?_⟩⟩
      · rw [hcur', hqD]
      · rw [← hend]
        exact hpath

omit hL in
theorem slot_div_eq_zero_iff (hacc : Accepted size) (hp : p % 4096 = 0 ∧ p ≠ 0 ∧ p < 2 ^ 52) :
    slot size p (cap size - 1) / 256 ^ size = 0 ↔ p < 256 ^ size := by
  have hcap := hacc.cap_ge
  have hend := slot_end (show cap size - 1 < cap size by omega)
  rw [Nat.div_eq_zero_iff_lt (by positivity)]
  by_cases hs : 8 ≤ size
  · have hbig : 2 ^ 64 ≤ 256 ^ size := le_trans (by norm_num) (Nat.pow_le_pow_right (by norm_num) hs)
    exact iff_of_true (lt_of_lt_of_le (by unfold slot; omega) hbig) (lt_of_lt_of_le (by omega) hbig)
  · have hlast := hacc.last (p := p) (by omega) (n := cap size - 1) (by omega)
    generalize slot size p (cap size - 1) = x at hlast
    rcases hacc.small (by omega) with rfl | rfl | rfl | rfl <;> norm_num <;> omega

omit hL in
/-- **All slabs are kept**: the list is the old slabs and then the new ones, and of the old slabs the
count, the head of the free list and the buffers, with the links in them, are as they were. -/
structure KeepsSlabs (m m' : Mem) (cache : ℕ) (H : Set ℕ) (L new : List ℕ) : Prop where
  list : Chain (fun a => load64 m' (slabNext a)) (load64 m' (cacheHead cache)) ((L ++ new).map header)
  count : ∀ p ∈ L, load64 m' (slabCount (header p)) = load64 m (slabCount (header p))
  free : ∀ p ∈ L, load64 m' (slabFreeHead (header p)) = load64 m (slabFreeHead (header p))
  buffers : ∀ q ∈ H, q ≠ cache → ∀ a, q ≤ a → a < q + 4064 → m' a = m a

omit hL in
theorem keepsSlabs_of_appended {ps new : List ℕ} (h : Listed s.mem size cache H L)
    (happ : Appended Good s s' H cache ps)
    (hlist : Chain (fun a => load64 s'.mem (slabNext a)) (load64 s'.mem (cacheHead cache))
      ((L ++ new).map header)) : KeepsSlabs s.mem s'.mem cache H L new := by
  have hfield : ∀ p ∈ L, ∀ k, 8 ≤ k → k ≤ 24 →
      load64 s'.mem (header p + k) = load64 s.mem (header p + k) := fun p hp k h1 h2 => by
    obtain ⟨hpH, hpc⟩ := h.slabs_mem p hp
    refine load64_congr fun b hb => happ.kept p hpH hpc b ?_ (Or.inr ?_) <;>
      (simp only [header, Set.mem_Ico, mem_page] at hb ⊢; omega)
  exact ⟨hlist, fun p hp => hfield p hp 8 le_rfl (by norm_num),
    fun p hp => hfield p hp 16 (by norm_num) (by norm_num),
    fun q hq hqc a h1 h2 => happ.kept q hq hqc a (mem_page.mpr (by omega)) (Or.inl h2)⟩

omit hL in
theorem length_le_one {ps new : List ℕ} {b : ℕ} (h : Listed s.mem size cache H L)
    (happ : Appended Good s s' H cache ps) (hps : ps ≠ [])
    (hpath : Path (fun a => load64 s'.mem (slabNext a)) (load64 s'.mem (cacheHead cache))
      ((L.take 1 ++ ps).map header) b)
    (hlist : Chain (fun a => load64 s'.mem (slabNext a)) (load64 s'.mem (cacheHead cache))
      ((L ++ new).map header)) : L.length ≤ 1 := by
  match L, h, hpath, hlist with
  | [], _, _, _ => exact Nat.zero_le _
  | [_], _, _, _ => exact le_rfl
  | c :: d :: L, h, hpath, hlist =>
    -- the slab behind the first one is a new one
    obtain ⟨p, ps', rfl⟩ := List.exists_cons_of_ne_nil hps
    obtain ⟨-, -, hrest⟩ := path_cons_iff.mp hpath
    obtain ⟨hp, -, -⟩ := path_cons_iff.mp hrest
    obtain ⟨-, -, hrest'⟩ := chain_cons_iff.mp hlist
    obtain ⟨hd, -, -⟩ := chain_cons_iff.mp hrest'
    have hpd : p = d := Nat.add_right_cancel (hp.symm.trans hd)
    exact absurd (hpd ▸ (h.slabs_mem d (by simp)).1) (happ.new p (by simp))

/-- **Growth keeps all slabs** exactly if no slab is asked for, or the list has at most one slab and
the last new page lies below `256 ^ size`, so that the pointer in its last buffer leaves the header's
link NULL. From 8 bytes on every page does. -/
theorem grow_keeps_iff (flags : SlabFlags) (n : ℕ) (hG : Good s H) (h : Listed s.mem size cache H L)
    (hacc : Accepted size) (hmore : ∀ ps, ¬ Short A Good H n ps) :
    ∃ (s' : Machine σ) (ps : List ℕ), slabCacheGrow A flags cache n s = .ok s' ∧ ps.length = n ∧
      Good s' (H ∪ {q | q ∈ ps}) ∧ (∀ p ∈ ps, p ∉ H) ∧
      (∀ q ∈ ps.getLast?, load64 s'.mem (cacheSlabs cache) = header q) ∧
      ((∃ new : List ℕ, new.length = n ∧ (∀ p ∈ new, p ∉ H) ∧ KeepsSlabs s.mem s'.mem cache H L new) ↔
        n = 0 ∨ (L.length ≤ 1 ∧ ∀ q ∈ ps.getLast?, q < 256 ^ size)) := by
  obtain ⟨s', ps, hok, hlen, happ, h0, hpath⟩ := grow_path hL flags hacc n hG h hmore
  refine ⟨s', ps, hok, hlen, happ.good, happ.new, fun q hq => ?_, ?_⟩
  · have hn0 : n ≠ 0 := by
      rintro rfl
      rw [List.length_eq_zero_iff.mp hlen] at hq
      cases hq
    obtain ⟨q', hq', hcur, -⟩ := hpath hn0
    rw [hq'] at hq
    cases hq
    exact hcur
  by_cases hn0 : n = 0
  · subst hn0
    refine iff_of_true ⟨[], rfl, by simp, keepsSlabs_of_appended h happ ?_⟩ (Or.inl rfl)
    rw [List.append_nil]
    exact h0 rfl
  obtain ⟨q, hq, -, hpath⟩ := hpath hn0
  have hqm : q ∈ ps := List.mem_of_getLast? hq
  have hqo := hL.pages (hL.handed happ.good (Or.inr hqm))
  have hbelow : (∀ q' ∈ ps.getLast?, q' < 256 ^ size) ↔ q < 256 ^ size := by simp [hq]
  rw [hbelow, ← slot_div_eq_zero_iff hacc hqo, or_iff_right hn0]
  constructor
  · rintro ⟨new, hnlen, hnew, hk⟩
    have hL1 := length_le_one h happ (List.ne_nil_of_mem hqm) hpath hk.list
    refine ⟨hL1, ?_⟩
    rw [List.take_of_length_le hL1] at hpath
    exact (hk.list.eq_path hpath (by simp [hlen, hnlen])).2
  · rintro ⟨hL1, hz⟩
    rw [List.take_of_length_le hL1] at hpath
    exact ⟨ps, hlen, happ.new, keepsSlabs_of_appended h happ (hpath.chain hz)⟩

end Append

theorem grow_keeps_iff_small : ∃ t t' b, slabCacheCreate pmmSource
    ⟨true, false⟩ 0 512 booted = .ok (8192, t) ∧
    slabCacheGrow pmmSource ⟨true, false⟩ 8192 1 t = .ok t' ∧
    ∃ H a, Listed t.mem 512 8192 H [a] ∧ KeepsSlabs t.mem t'.mem 8192 H [a] [b] := by
  obtain ⟨t, a, hnew, h⟩ := SlabSpec.small_cache
  have hcard : ({8192, a} : Finset ℕ).card ≤ 2 := Finset.card_le_two
  have hl : Listed t.mem 512 8192 {8192, a} [a] := listed_of_owns h
  obtain ⟨t', ps, hok, -, hG, -, -, hk⟩ := grow_keeps_iff smallMap_lawful ⟨true, false⟩ 1 h.good hl
    ⟨le_rfl, by decide⟩ fun ps => by
      simpa using SlabSpec.small_not_short {8192, a} (n := 1) (by omega) ps
  have hlow : ∀ q ∈ ps.getLast?, q < 256 ^ 512 := fun q hq => by
    have hq := smallMap_lawful.pages (smallMap_lawful.handed hG (Or.inr (List.mem_of_getLast? hq)))
    have hq8 : q < 256 ^ 8 := lt_trans hq.2.2 (by norm_num)
    have hpow : ∀ k, 8 ≤ k → q < 256 ^ k := fun k hk =>
      lt_of_lt_of_le hq8 (Nat.pow_le_pow_right (by norm_num) hk)
    exact hpow 512 (by norm_num)
  obtain ⟨new, hlen, -, hkeep⟩ := hk.mpr (Or.inr ⟨le_rfl, hlow⟩)
  obtain ⟨b, rfl⟩ := List.length_eq_one_iff.mp hlen
  exact ⟨t, t', b, hnew, hok, _, a, hl, hkeep⟩

/-- Of a cache with three slabs, growth by one keeps the first only. -/
theorem grow_loses_slabs : ∃ t t₁ t₂ H L,
    slabCacheCreate pmmSource ⟨true, false⟩ 0 512 booted = .ok (8192, t) ∧
    slabCacheGrow pmmSource ⟨true, false⟩ 8192 2 t = .ok t₁ ∧
    Handed smallMap t₁ H ∧ Listed t₁.mem 512 8192 H L ∧ L.length = 3 ∧
    slabCacheGrow pmmSource ⟨true, false⟩ 8192 1 t₁ = .ok t₂ ∧
    ¬ ∃ new : List ℕ, new.length = 1 ∧ (∀ p ∈ new, p ∉ H) ∧ KeepsSlabs t₁.mem t₂.mem 8192 H L new := by
  obtain ⟨t, a, hnew, h⟩ := SlabSpec.small_cache
  have hcard : ({8192, a} : Finset ℕ).card ≤ 2 := Finset.card_le_two
  have hshort : ∀ ps, ¬ Short pmmSource (Handed smallMap) {8192, a} 2 ps := fun ps => by
    simpa using SlabSpec.small_not_short {8192, a} (n := 2) (by omega) ps
  rcases grow_spec smallMap_lawful ⟨true, false⟩ 2 h with ⟨msg, ps, -, hs⟩ | ⟨t₁, ps, hok₁, h₁, -, hlen⟩
  · exact absurd hs (hshort ps)
  have hlen := hlen.resolve_right fun hn => hshort ps hn.2
  have hl : Listed t₁.mem 512 8192 _ ((growBy 512 ps [fresh 512 a]).map View.page) := listed_of_owns h₁
  have hcard₁ : (({8192, a} : Finset ℕ) ∪ ps.toFinset).card ≤ 4 := by
    have h1 := Finset.card_union_le ({8192, a} : Finset ℕ) ps.toFinset
    have h2 := List.toFinset_card_le ps
    omega
  obtain ⟨t₂, qs, hok₂, hqs, happ, -, hpath⟩ := grow_path smallMap_lawful ⟨true, false⟩
    (show Accepted 512 from ⟨le_rfl, by decide⟩) 1 h₁.good hl fun qs => by
      have := SlabSpec.small_not_short ({8192, a} ∪ ps.toFinset) (n := 1) (by omega) qs
      rw [Finset.coe_union, List.coe_toFinset] at this
      simpa using this
  have hps : ps ≠ [] := by
    rintro rfl
    cases hlen
  have hL3 : ((growBy 512 ps [fresh 512 a]).map View.page).length = 3 := by
    simp [growBy, hps, hlen]
  obtain ⟨q, hq, -, hpath⟩ := hpath one_ne_zero
  refine ⟨t, t₁, t₂, _, _, hnew, hok₁, h₁.good, hl, hL3, hok₂, ?_⟩
  rintro ⟨new, -, -, hk⟩
  have := length_le_one hl happ (List.ne_nil_of_mem (List.mem_of_getLast? hq)) hpath hk.list
  omega

end FusionCore.Mm.SlabFresh
