import FusionCore.Mm.SlabRep

/-! # What the operations of the slab allocator do to a cache

In a state of the invariant `slab_cache_alloc` and `slab_cache_free` do `takeFirst` and `putFirst`, unless
they run out of fuel, and keep the invariant. They write only the cursor, one header and, when a buffer is
released, the buffer. -/

namespace FusionCore.Mm.SlabOps

open FusionCore.Lib.ByteMem FusionCore.Lib.NullChain
open FusionCore.Mm.Defs FusionCore.Mm.Pages FusionCore.Mm.Slab FusionCore.Mm.SlabView
open FusionCore.Mm.SlabRep

variable {σ : Type} {m m' : Mem} {size cache : ℕ} {owned P X : Set ℕ} {vs : List View} {live : List ℕ}

/-- The bytes of the cache and of its pages. -/
def cacheBytes (cache : ℕ) (owned : Set ℕ) : Set ℕ := {a | ∃ p ∈ insert cache owned, a ∈ page p}

theorem cursor_subset : cursor cache ⊆ touch size cache P X := fun _ hb => Or.inl hb

theorem touch_mono {Q : Set ℕ} (hs : P ⊆ Q) : touch size cache P X ⊆ touch size cache Q X := by
  rintro a (ht | ⟨p, hp, ht⟩ | ht)
  · exact Or.inl ht
  · exact Or.inr (Or.inl ⟨p, hs hp, ht⟩)
  · exact Or.inr (Or.inr ht)

section Inv
variable (h : CacheInv m size cache owned vs live)
include h

theorem touch_subset (hP : P ⊆ owned) (hX : ∀ x ∈ X, IsSlot size owned x) :
    touch size cache P X ⊆ cacheBytes cache owned := by
  rintro a (ht | ⟨p, hp, ht⟩ | ⟨x, hx, ht⟩)
  · exact ⟨cache, Set.mem_insert _ _, by rw [mem_page]; omega⟩
  · exact ⟨p, Set.mem_insert_of_mem _ (hP hp), by rw [mem_page]; omega⟩
  · obtain ⟨h1, h2, -⟩ := h.slot_place (hX x hx)
    exact ⟨_, Set.mem_insert_of_mem _ h1, by rw [mem_page]; omega⟩

theorem offCursor : ∀ v ∈ vs, OffCursor cache v := by
  intro v hv
  have h1 := h.aligned _ (h.apart.owned v hv)
  have h2 : v.page ≠ cache := fun he => h.cache_new (he ▸ h.apart.owned v hv)
  have h3 := h.cache_ok
  unfold OffCursor
  omega

theorem rewind :
    let m₁ := store64 m (cacheSlabs cache) (load64 m (cacheHead cache))
    CacheInv m₁ size cache owned vs live ∧ DiffersOn (cursor cache) m m₁ ∧
      Chain (fun a => load64 m₁ (slabNext a)) (load64 m₁ (cacheSlabs cache))
        (vs.map fun v => header v.page) := by
  intro m₁
  have hd : DiffersOn (cursor cache) m m₁ := differsOn_store64 (DiffersOn.refl _ _) fun _ h => h
  have hI : CacheInv m₁ size cache owned vs live := h.write (hd.mono fun _ ha => Or.inl ha)
  refine ⟨hI, hd, ?_⟩
  have hc : load64 m₁ (cacheSlabs cache) = load64 m₁ (cacheHead cache) := by
    rw [load64_store64 (load64_lt _ _)]
    refine (hd.load64 fun b hb => ?_).symm
    simp only [cursor, cacheSlabs, cacheHead, Set.mem_Ico] at hb ⊢
    omega
  rw [hc]
  exact hI.rep.chain

theorem hasFree_eq {v : View} (hv : v ∈ vs) :
    hasFree m (header v.page) = !v.free.isEmpty := by
  have hc := h.rep.free v hv
  have hne := hc.ne_zero
  have he := hc.head_eq
  unfold hasFree
  cases hf : v.free with
  | nil => rw [hf] at he; simp [he]
  | cons a l =>
    rw [hf] at he hne
    have := hne a (List.mem_cons_self ..)
    simp [he, this]

theorem hasRoom_eq {v : View} (hv : v ∈ vs) :
    hasRoom cache m (header v.page) = decide (v.free.length < cap size) := by
  unfold hasRoom
  rw [h.rep.count v hv, h.rep.max_eq]

theorem of_cursor (hd : DiffersOn (cursor cache) m m') :
    CacheInv m' size cache owned vs live := h.write (hd.mono fun _ ha => Or.inl ha)

end Inv

/-! ### Taking and putting at the cursor -/

section Cursor
variable {pre post : List View} {v : View} {a : ℕ} {l : List ℕ}

theorem page_unique (h : CacheInv m size cache owned (pre ++ v :: post) live) :
    ∀ u ∈ pre ++ post, u.page ≠ v.page := by
  have hnd := h.apart.pages
  rw [List.map_append, List.map_cons] at hnd
  intro u hu he
  have hnd' := (List.nodup_middle.mp hnd)
  refine (List.nodup_cons.mp hnd').1 ?_
  rw [← List.map_append, ← he]
  exact List.mem_map_of_mem hu

/-- **The words `takeBufctl` leaves**: the count is one less, and the head of the free list is the second
buffer. -/
theorem takeBufctl_words {slab n : ℕ} (hcur : load64 m (cacheSlabs cache) = slab)
    (hcount : load64 m (slabCount slab) = n + 1) (hptr : load64 m (slabFreeHead slab) = a) :
    (takeBufctl m cache).1 = a ∧ DiffersOn (Set.Ico (slab + 8) (slab + 24)) m (takeBufctl m cache).2 ∧
      load64 (takeBufctl m cache).2 (slabCount slab) = n ∧
      load64 (takeBufctl m cache).2 (slabFreeHead slab) = load64 m (bufctlNext a) := by
  have hlt := load64_lt m (slabCount slab)
  unfold takeBufctl
  rw [hcur]
  dsimp only
  rw [hptr]
  set m₁ := store64 m (slabFreeHead slab) (load64 m (bufctlNext a)) with hm₁
  have hd₁ : DiffersOn (Set.Ico (slab + 8) (slab + 24)) m m₁ :=
    differsOn_store64 (DiffersOn.refl _ _) fun b hb => by
      simp only [slabFreeHead, Set.mem_Ico] at hb ⊢
      omega
  have hcount₁ : load64 m₁ (slabCount slab) = n + 1 := by
    rw [hm₁, load64_store64_of_disjoint (by unfold slabFreeHead slabCount; omega), hcount]
  refine ⟨rfl, differsOn_store64 hd₁ fun b hb => ?_, ?_, ?_⟩
  · simp only [slabCount, Set.mem_Ico] at hb ⊢
    omega
  · rw [load64_store64 (by omega), hcount₁]
    omega
  · rw [load64_store64_of_disjoint (by unfold slabFreeHead slabCount; omega), hm₁,
      load64_store64 (load64_lt _ _)]

/-- **Taking the first free buffer** of the slab at the cursor. -/
theorem takeBufctl_spec (h : CacheInv m size cache owned (pre ++ v :: post) live)
    (hcur : load64 m (cacheSlabs cache) = header v.page) (hf : v.free = a :: l) :
    (takeBufctl m cache).1 = a ∧ DiffersOn (touch size cache {v.page} ∅) m (takeBufctl m cache).2 ∧
      Rep (takeBufctl m cache).2 size cache (pre ++ ⟨v.page, l⟩ :: post) := by
  have hv : v ∈ pre ++ v :: post := by simp
  have hvo := h.apart.owned v hv
  have hfree := h.rep.free v hv
  have hcount := h.rep.count v hv
  rw [hf] at hfree hcount
  obtain ⟨h1, -, h3⟩ := chain_cons_iff.mp hfree
  rw [h1] at h3
  obtain ⟨hptr, hd, hcnt, hhead⟩ := takeBufctl_words hcur hcount h1
  generalize (takeBufctl m cache).2 = m₂ at hd hcnt hhead ⊢
  have hd₂ : DiffersOn (touch size cache {v.page} ∅) m m₂ := hd.mono fun b hb => by
    rw [Set.mem_Ico, header] at hb
    exact Or.inr (Or.inl ⟨_, rfl, by omega, by omega⟩)
  have hnext : load64 m₂ (slabNext (header v.page)) = load64 m (slabNext (header v.page)) :=
    hd.load64 fun b hb => by
      rw [Set.mem_Ico] at hb
      unfold slabNext
      omega
  refine ⟨hptr, hd₂, h.rep.update rfl ?_ hnext hcnt ?_⟩
  · exact h.untouched (fun u hu => mem_of_mem_sides hu) (by simpa using hvo)
      (fun u hu => page_unique h u hu) (by simp) hd₂
  · -- no link of a free buffer lies in the header
    rw [hhead]
    refine h3.congr fun b hb => hd.load64 fun c hc => ?_
    have hb : b ∈ nodes (pre ++ v :: post) := mem_nodes.mpr ⟨v, hv, by rw [hf]; simp [hb]⟩
    obtain ⟨-, h4, h5⟩ := h.slot_place (h.node_slot hb)
    have h7 := h.aligned _ hvo
    have h8 := h.size_ge
    rw [Set.mem_Ico, header] at hc
    unfold bufctlNext
    omega

/-- **The words `putBufctl` leaves**: the buffer is linked to the first free one and becomes the
head, and the count is one more. -/
theorem putBufctl_words {slab n : ℕ} (hcur : load64 m (cacheSlabs cache) = slab)
    (hcount : load64 m (slabCount slab) = n) (hn : n + 1 < 2 ^ 64) (ha : a < 2 ^ 64)
    (hoff : a + 16 ≤ slab ∨ slab + 32 ≤ a) :
    DiffersOn (Set.Ico a (a + 16) ∪ Set.Ico (slab + 8) (slab + 24)) m (putBufctl m cache a) ∧
      load64 (putBufctl m cache a) (slabCount slab) = n + 1 ∧
      load64 (putBufctl m cache a) (slabFreeHead slab) = a ∧
      load64 (putBufctl m cache a) (bufctlNext a) = load64 m (slabFreeHead slab) := by
  unfold putBufctl
  rw [hcur]
  set m₁ := store64 m (bufctlNext a) (load64 m (slabFreeHead slab)) with hm₁
  set m₂ := store64 m₁ (bufctlPtr a) a with hm₂
  set m₃ := store64 m₂ (slabFreeHead slab) a with hm₃
  set m₄ := store64 m₃ (slabCount slab) ((load64 m₃ (slabCount slab) + 1) % 2 ^ 64) with hm₄
  refine ⟨?_, ?_, ?_, ?_⟩
  · refine differsOn_store64 (differsOn_store64 (differsOn_store64 (differsOn_store64 (DiffersOn.refl _ _)
      fun b hb => ?_) fun b hb => ?_) fun b hb => ?_) fun b hb => ?_
    all_goals
      simp only [bufctlNext, bufctlPtr, slabFreeHead, slabCount, Set.mem_union, Set.mem_Ico] at hb ⊢
      omega
  · have hcount₃ : load64 m₃ (slabCount slab) = n := by
      rw [hm₃, load64_store64_of_disjoint (by unfold slabFreeHead slabCount; omega), hm₂,
        load64_store64_of_disjoint (by unfold bufctlPtr slabCount; omega), hm₁,
        load64_store64_of_disjoint (by unfold bufctlNext slabCount; omega), hcount]
    rw [hm₄, load64_store64 (by omega), hcount₃]
    exact Nat.mod_eq_of_lt hn
  · rw [hm₄, load64_store64_of_disjoint (by unfold slabFreeHead slabCount; omega), hm₃, load64_store64 ha]
  · rw [hm₄, load64_store64_of_disjoint (by unfold bufctlNext slabCount; omega), hm₃,
      load64_store64_of_disjoint (by unfold bufctlNext slabFreeHead; omega), hm₂,
      load64_store64_of_disjoint (by unfold bufctlNext bufctlPtr; omega), hm₁,
      load64_store64 (load64_lt _ _)]

/-- **Putting a live buffer** on the free list of the slab at the cursor. -/
theorem putBufctl_spec (h : CacheInv m size cache owned (pre ++ v :: post) live)
    (hcur : load64 m (cacheSlabs cache) = header v.page) (ha : a ∈ live)
    (hroom : v.free.length < cap size) :
    DiffersOn (touch size cache {v.page} {a}) m (putBufctl m cache a) ∧
      Rep (putBufctl m cache a) size cache (pre ++ ⟨v.page, a :: v.free⟩ :: post) := by
  have hv : v ∈ pre ++ v :: post := by simp
  have hvo := h.apart.owned v hv
  obtain ⟨hao, hap, hac⟩ := h.slot_place (h.live_slot ha)
  have hpa := h.pages _ (Set.mem_insert_of_mem _ hao)
  have hva := h.aligned _ hvo
  have hsz := h.size_ge
  have hcap : cap size ≤ 4056 := Nat.div_le_self _ _
  -- the header and the buffer do not overlap
  have hoff : a + 16 ≤ header v.page ∨ header v.page + 32 ≤ a := by unfold header; omega
  obtain ⟨hd, hcnt, hhead, hlink⟩ := putBufctl_words hcur (h.rep.count v hv) (by omega) (by omega) hoff
  generalize putBufctl m cache a = m₄ at hd hcnt hhead hlink ⊢
  have hd₄ : DiffersOn (touch size cache {v.page} {a}) m m₄ := hd.mono fun b hb => by
    simp only [header, Set.mem_union, Set.mem_Ico] at hb
    rcases hb with hb | hb
    · exact Or.inr (Or.inr ⟨a, rfl, by omega, by omega⟩)
    · exact Or.inr (Or.inl ⟨_, rfl, by omega, by omega⟩)
  have hnext : load64 m₄ (slabNext (header v.page)) = load64 m (slabNext (header v.page)) :=
    hd.load64 fun b hb => by
      simp only [Set.mem_union, Set.mem_Ico] at hb
      unfold slabNext
      omega
  refine ⟨hd₄, h.rep.update rfl ?_ hnext hcnt ?_⟩
  · refine h.untouched (fun u hu => mem_of_mem_sides hu) (by simpa using hvo)
      (fun u hu => page_unique h u hu) ?_ hd₄
    rintro x rfl
    refine ⟨h.live_slot ha, fun hn => h.live_not_node ha ?_⟩
    obtain ⟨u, hu, hx⟩ := mem_nodes.mp hn
    exact mem_nodes.mpr ⟨u, mem_of_mem_sides hu, hx⟩
  · rw [hhead]
    refine .cons (by omega) ?_
    rw [hlink]
    refine (h.rep.free v hv).congr fun b hb => hd₄.load64 fun c hc => ?_
    have hb : b ∈ nodes (pre ++ v :: post) := mem_nodes.mpr ⟨v, hv, hb⟩
    obtain ⟨-, h4, h5⟩ := h.slot_place (h.node_slot hb)
    have h6 := h.cache_ok
    have h7 := (h.live_slot ha).apart h.aligned (h.node_slot hb) (fun he => h.live_not_node ha (he ▸ hb))
    simp only [touch, Set.mem_ofPred_eq, Set.mem_singleton_iff, exists_eq_left] at hc
    show c < b ∨ b + 8 ≤ c
    omega

end Cursor

/-! ### `slab_cache_alloc` and `slab_cache_free` -/

section Ops
variable {s : Machine σ} {vs' : List View} {a : ℕ} (A : PageSource σ)
  (h : CacheInv s.mem size cache owned vs live)
include h

/-- **Allocation** where a slab has a free buffer. -/
theorem alloc_take (ht : takeFirst vs = some (a, vs')) :
    ∃ m', CacheInv m' size cache owned vs' (a :: live) ∧ DiffersOn (touch size cache owned ∅) s.mem m' ∧
      ∀ flags fuel, slabCacheAlloc A flags cache fuel s = .ok (a, { s with mem := m' }) ∨
        fuel ≤ vs.length ∧ slabCacheAlloc A flags cache fuel s = .error .outOfFuel := by
  obtain ⟨pre, v, post, l, rfl, hpre, hf, rfl⟩ := takeFirst_split ht
  obtain ⟨h₁, hd₁, hcur₁⟩ := rewind h
  have hv : v ∈ pre ++ v :: post := by simp
  obtain ⟨m₂, hd₂, hcur₂, hseek⟩ := seek_found hasFree hcur₁ (offCursor h)
    (fun u hu m' hm' => by
      rw [hasFree_eq (of_cursor h₁ hm') (List.mem_append_left _ hu), hpre u hu]; rfl)
    (fun m' hm' => by rw [hasFree_eq (of_cursor h₁ hm') hv, hf]; rfl)
  have h₂ := of_cursor h₁ hd₂
  obtain ⟨hptr, hd₃, hrep⟩ := takeBufctl_spec h₂ hcur₂ hf
  have hvo : {v.page} ⊆ owned := by simpa using h.apart.owned v hv
  refine ⟨(takeBufctl m₂ cache).2, { h₂ with rep := hrep, apart := h.apart.take ht },
    ((hd₁.trans hd₂).mono cursor_subset).trans (hd₃.mono (touch_mono hvo)), fun flags fuel => ?_⟩
  cases fuel with
  | zero => exact Or.inr ⟨Nat.zero_le _, rfl⟩
  | succ fuel =>
    have hc0 : cache ≠ 0 := h.cache_ok.2.1
    have hh0 : header v.page ≠ 0 := by unfold header; omega
    rcases hseek fuel with hseek | ⟨hle, hseek⟩
    · refine Or.inl ?_
      rw [slabCacheAlloc, if_neg hc0, hseek]
      simp only [hcur₂, if_neg hh0, hptr]
    · refine Or.inr ⟨by simp; omega, ?_⟩
      rw [slabCacheAlloc, if_neg hc0, hseek]

theorem alloc_none (ht : takeFirst vs = none) :
    ∃ m', CacheInv m' size cache owned vs live ∧ DiffersOn (touch size cache owned ∅) s.mem m' ∧
      ∀ (flags : SlabFlags) (fuel : ℕ),
        slabCacheAlloc A flags cache (fuel + 1) s = (if flags.autoGrow then
          match slabCacheGrow A flags cache 1 { s with mem := m' } with
          | .error e => .error e
          | .ok s' => slabCacheAlloc A flags cache fuel s'
        else if flags.panic then
          .error (.panic "slab_cache_alloc('%s'): Couldn't find allocatable memory\n")
        else .ok (0, { s with mem := m' })) ∨
        fuel ≤ vs.length ∧ slabCacheAlloc A flags cache (fuel + 1) s = .error .outOfFuel := by
  obtain ⟨h₁, hd₁, hcur₁⟩ := rewind h
  have hall := takeFirst_eq_none.mp ht
  obtain ⟨m₂, hd₂, hcur₂, hseek⟩ := seek_none hasFree hcur₁ (offCursor h)
    (fun u hu m' hm' => by rw [hasFree_eq (of_cursor h₁ hm') hu, hall u hu]; rfl)
  have hc0 : cache ≠ 0 := h.cache_ok.2.1
  refine ⟨m₂, of_cursor h₁ hd₂, (hd₁.trans hd₂).mono cursor_subset, fun flags fuel => ?_⟩
  rcases hseek fuel with hseek | ⟨hle, hseek⟩
  · refine Or.inl ?_
    rw [slabCacheAlloc, if_neg hc0, hseek]
    exact if_pos hcur₂
  · refine Or.inr ⟨hle, ?_⟩
    rw [slabCacheAlloc, if_neg hc0, hseek]

omit A in
/-- **Release** of a live buffer: it goes to the first slab with room, or is lost. -/
theorem free_put (ha : a ∈ live) :
    ∃ m', CacheInv m' size cache owned ((putFirst (cap size) a vs).getD vs) (live.erase a) ∧
      DiffersOn (touch size cache owned {a}) s.mem m' ∧
      ∀ (flags : SlabFlags) (fuel : ℕ),
        slabCacheFree flags cache a fuel s = (if putFirst (cap size) a vs = none ∧ flags.panic then
          .error (.panic "slab_cache_free('%s'): Couldn't find a slab to be freed\n")
        else .ok { s with mem := m' }) ∨
        fuel ≤ vs.length ∧ slabCacheFree flags cache a fuel s = .error .outOfFuel := by
  obtain ⟨h₁, hd₁, hcur₁⟩ := rewind h
  have hc0 : cache ≠ 0 := h.cache_ok.2.1
  cases hp : putFirst (cap size) a vs with
  | none =>
    have hall := putFirst_eq_none.mp hp
    obtain ⟨m₂, hd₂, hcur₂, hseek⟩ := seek_none (hasRoom cache) hcur₁
      (offCursor h) (fun u hu m' hm' => by
        rw [hasRoom_eq (of_cursor h₁ hm') hu]; exact decide_eq_false (hall u hu))
    have h₂ := of_cursor h₁ hd₂
    refine ⟨m₂, { h₂ with apart := h.apart.drop a }, (hd₁.trans hd₂).mono cursor_subset,
      fun flags fuel => ?_⟩
    rcases hseek fuel with hseek | ⟨hle, hseek⟩
    · refine Or.inl ?_
      rw [slabCacheFree, if_neg hc0, hseek]
      simp only [hcur₂, if_true, true_and]
    · refine Or.inr ⟨hle, ?_⟩
      rw [slabCacheFree, if_neg hc0, hseek]
  | some vs' =>
    obtain ⟨pre, v, post, rfl, hpre, hroom, rfl⟩ := putFirst_split hp
    have hv : v ∈ pre ++ v :: post := by simp
    obtain ⟨m₂, hd₂, hcur₂, hseek⟩ := seek_found (hasRoom cache) hcur₁
      (offCursor h) (fun u hu m' hm' => by
        rw [hasRoom_eq (of_cursor h₁ hm') (List.mem_append_left _ hu)]
        exact decide_eq_false (hpre u hu))
      (fun m' hm' => by rw [hasRoom_eq (of_cursor h₁ hm') hv]; exact decide_eq_true hroom)
    have h₂ := of_cursor h₁ hd₂
    obtain ⟨hd₃, hrep⟩ := putBufctl_spec h₂ hcur₂ ha hroom
    have hvo : {v.page} ⊆ owned := by simpa using h.apart.owned v hv
    refine ⟨putBufctl m₂ cache a, { h₂ with rep := hrep, apart := h.apart.put ha hp },
      ((hd₁.trans hd₂).mono cursor_subset).trans (hd₃.mono (touch_mono hvo)), fun flags fuel => ?_⟩
    have hh0 : header v.page ≠ 0 := by unfold header; omega
    rcases hseek fuel with hseek | ⟨hle, hseek⟩
    · refine Or.inl ?_
      rw [slabCacheFree, if_neg hc0, hseek]
      simp [hcur₂, hh0]
    · refine Or.inr ⟨by simp; omega, ?_⟩
      rw [slabCacheFree, if_neg hc0, hseek]

end Ops

end FusionCore.Mm.SlabOps
