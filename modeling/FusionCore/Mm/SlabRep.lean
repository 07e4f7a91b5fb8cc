import FusionCore.Mm.Slab
import FusionCore.Mm.SlabView
import FusionCore.Lib.NullChain

/-! # Caches in memory

`Rep`: the memory holds the cache at `cache` with the slabs `vs`. It depends on the bytes of `foot` only:
the fields of the cache up to the cursor, the headers of the slabs, and the links of the free buffers.
`CacheInv` adds that the buffers are separated and where the pages lie, so that the bytes a client may
write, those of the live buffers, and the cursor are not in `foot`. -/

namespace FusionCore.Mm.SlabRep

open FusionCore.Lib.ByteMem FusionCore.Lib.NullChain
open FusionCore.Mm.Defs FusionCore.Mm.Pages FusionCore.Mm.Slab FusionCore.Mm.SlabView

/-- The slab record of a page. -/
def header (p : ℕ) : ℕ := p + 4064

/-- **The memory holds the cache.** -/
structure Rep (m : Mem) (size cache : ℕ) (vs : List View) : Prop where
  size_eq : load64 m (cacheSlabSize cache) = size
  max_eq : load64 m (cacheMax cache) = cap size
  chain : Chain (fun a => load64 m (slabNext a)) (load64 m (cacheHead cache))
    (vs.map fun v => header v.page)
  count : ∀ v ∈ vs, load64 m (slabCount (header v.page)) = v.free.length
  free : ∀ v ∈ vs, Chain (fun a => load64 m (bufctlNext a)) (load64 m (slabFreeHead (header v.page)))
    v.free

/-- The bytes the representation depends on. -/
def foot (cache : ℕ) (vs : List View) : Set ℕ :=
  {a | (cache + 8 ≤ a ∧ a < cache + 32) ∨
    (∃ v ∈ vs, v.page + 4064 ≤ a ∧ a < v.page + 4088) ∨ ∃ b ∈ nodes vs, b ≤ a ∧ a < b + 8}

theorem mem_middle {α : Type} {pre post : List α} {u v : α} (h : u ∈ pre ++ v :: post) :
    u = v ∨ u ∈ pre ++ post := by
  rcases List.mem_append.mp h with h | h
  · exact Or.inr (List.mem_append_left _ h)
  · rcases List.mem_cons.mp h with h | h
    · exact Or.inl h
    · exact Or.inr (List.mem_append_right _ h)

theorem mem_of_mem_sides {α : Type} {pre post : List α} {u v : α} (h : u ∈ pre ++ post) :
    u ∈ pre ++ v :: post := by
  rcases List.mem_append.mp h with h | h
  · exact List.mem_append_left _ h
  · exact List.mem_append_right _ (List.mem_cons_of_mem _ h)

section Congr
variable {m m' : Mem} {size cache : ℕ} {vs pre post : List View} {v v' : View}

theorem load_cache {k : ℕ} (he : Set.EqOn m' m (foot cache vs)) (h1 : 8 ≤ k) (h2 : k ≤ 24) :
    load64 m' (cache + k) = load64 m (cache + k) :=
  load64_congr fun b hb => he (Or.inl ⟨by have := hb.1; omega, by have := hb.2; omega⟩)

theorem load_header {k : ℕ} (he : Set.EqOn m' m (foot cache vs)) (hv : v ∈ vs) (hk : k ≤ 16) :
    load64 m' (header v.page + k) = load64 m (header v.page + k) :=
  load64_congr fun b hb => he (Or.inr (Or.inl ⟨v, hv, by
    have h1 := hb.1
    have h2 := hb.2
    unfold header at h1 h2
    omega⟩))

theorem load_node {a : ℕ} (he : Set.EqOn m' m (foot cache vs)) (ha : a ∈ nodes vs) :
    load64 m' a = load64 m a :=
  load64_congr fun _ hb => he (Or.inr (Or.inr ⟨a, ha, hb⟩))

theorem Rep.congr (h : Rep m size cache vs) (he : Set.EqOn m' m (foot cache vs)) :
    Rep m' size cache vs := by
  refine ⟨?_, ?_, ?_, fun v hv => ?_, fun v hv => ?_⟩
  · exact (load_cache he le_rfl (by norm_num)).trans h.size_eq
  · exact (load_cache he (by norm_num) (by norm_num)).trans h.max_eq
  · rw [show load64 m' (cacheHead cache) = load64 m (cacheHead cache) from
      load_cache he (by norm_num) le_rfl]
    refine h.chain.congr fun a ha => ?_
    obtain ⟨v, hv, rfl⟩ := List.mem_map.mp ha
    exact load_header (k := 0) he hv (by norm_num)
  · exact (load_header he hv (by norm_num)).trans (h.count v hv)
  · rw [show load64 m' (slabFreeHead (header v.page)) = load64 m (slabFreeHead (header v.page)) from
      load_header he hv le_rfl]
    exact (h.free v hv).congr fun a ha => load_node he (mem_nodes.mpr ⟨v, hv, ha⟩)

/-- **One slab changes its free list.** -/
theorem Rep.update (h : Rep m size cache (pre ++ v :: post)) (hp : v'.page = v.page)
    (he : Set.EqOn m' m (foot cache (pre ++ post)))
    (hnext : load64 m' (slabNext (header v.page)) = load64 m (slabNext (header v.page)))
    (hcount : load64 m' (slabCount (header v.page)) = v'.free.length)
    (hfree : Chain (fun a => load64 m' (bufctlNext a)) (load64 m' (slabFreeHead (header v.page)))
      v'.free) : Rep m' size cache (pre ++ v' :: post) := by
  have hmem : ∀ u ∈ pre ++ v' :: post, u = v' ∨ (u ∈ pre ++ post ∧ u ∈ pre ++ v :: post) :=
    fun u hu => (mem_middle hu).imp_right fun h => ⟨h, mem_of_mem_sides h⟩
  refine ⟨?_, ?_, ?_, fun u hu => ?_, fun u hu => ?_⟩
  · exact (load_cache he le_rfl (by norm_num)).trans h.size_eq
  · exact (load_cache he (by norm_num) (by norm_num)).trans h.max_eq
  · have hmap : (pre ++ v' :: post).map (fun v => header v.page) =
        (pre ++ v :: post).map fun v => header v.page := by simp [hp]
    rw [hmap, show load64 m' (cacheHead cache) = load64 m (cacheHead cache) from
      load_cache he (by norm_num) le_rfl]
    refine h.chain.congr fun a ha => ?_
    obtain ⟨u, hu, rfl⟩ := List.mem_map.mp ha
    by_cases huv : u = v
    · rw [huv]; exact hnext
    · exact load_header (k := 0) he ((mem_middle hu).resolve_left huv) (by norm_num)
  · rcases hmem u hu with rfl | ⟨h1, h2⟩
    · rw [hp]; exact hcount
    · exact (load_header he h1 (by norm_num)).trans (h.count u h2)
  · rcases hmem u hu with rfl | ⟨h1, h2⟩
    · rw [hp]; exact hfree
    · rw [show load64 m' (slabFreeHead (header u.page)) = load64 m (slabFreeHead (header u.page)) from
        load_header he h1 le_rfl]
      exact (h.free u h2).congr fun a ha => load_node he (mem_nodes.mpr ⟨u, h1, ha⟩)

end Congr

/-! ### The invariant -/

/-- **The invariant of a cache**: `owned` are the pages it got for slabs, `live` the buffers clients
hold. -/
structure CacheInv (m : Mem) (size cache : ℕ) (owned : Set ℕ) (vs : List View) (live : List ℕ) :
    Prop where
  rep : Rep m size cache vs
  apart : Apart size owned vs live
  pages : ∀ p ∈ insert cache owned, p % 4096 = 0 ∧ p ≠ 0 ∧ p < 2 ^ 52
  cache_new : cache ∉ owned
  size_ge : 16 ≤ size
  size_le : size ≤ 512

/-- The cursor, the headers of the pages `P`, and the buffers `X`. -/
def touch (size cache : ℕ) (P X : Set ℕ) : Set ℕ :=
  {a | (cache + 32 ≤ a ∧ a < cache + 40) ∨ (∃ p ∈ P, p + 4064 ≤ a ∧ a < p + 4096) ∨
    ∃ x ∈ X, x ≤ a ∧ a < x + size}

section Inv
variable {m m' : Mem} {size cache : ℕ} {owned P X : Set ℕ} {vs us : List View} {live : List ℕ}
  (h : CacheInv m size cache owned vs live)
include h

theorem CacheInv.aligned : ∀ p ∈ owned, p % 4096 = 0 := fun p hp =>
  (h.pages p (Set.mem_insert_of_mem _ hp)).1

theorem CacheInv.cache_ok : cache % 4096 = 0 ∧ cache ≠ 0 ∧ cache < 2 ^ 52 :=
  h.pages cache (Set.mem_insert _ _)

theorem CacheInv.slot_place {a : ℕ} (ha : IsSlot size owned a) :
    a / 4096 * 4096 ∈ owned ∧ a % 4096 + size ≤ 4056 ∧ a / 4096 * 4096 ≠ cache := by
  obtain ⟨h1, h2⟩ := ha.page h.aligned
  exact ⟨h1, h2, fun he => h.cache_new (he ▸ h1)⟩

theorem CacheInv.node_slot {a : ℕ} (ha : a ∈ nodes vs) : IsSlot size owned a :=
  h.apart.slots a (List.mem_append_left _ ha)

theorem CacheInv.live_slot {a : ℕ} (ha : a ∈ live) : IsSlot size owned a :=
  h.apart.slots a (List.mem_append_right _ ha)

theorem CacheInv.live_not_node {a : ℕ} (ha : a ∈ live) : a ∉ nodes vs := fun hn =>
  (List.nodup_append.mp h.apart.nodup).2.2 a hn a ha rfl

/-- **What an operation touches** is apart from the bytes other slabs depend on. -/
theorem CacheInv.untouched (hus : us ⊆ vs) (hP : P ⊆ owned) (hPu : ∀ u ∈ us, u.page ∉ P)
    (hX : ∀ x ∈ X, IsSlot size owned x ∧ x ∉ nodes us) (hd : DiffersOn (touch size cache P X) m m') :
    Set.EqOn m' m (foot cache us) := by
  have hc := h.cache_ok
  have hsz := h.size_ge
  have hsub : ∀ b ∈ nodes us, b ∈ nodes vs := by
    intro b hb
    obtain ⟨u, hu, hbu⟩ := mem_nodes.mp hb
    exact mem_nodes.mpr ⟨u, hus hu, hbu⟩
  intro a ha
  refine hd a ?_
  rintro (ht | ⟨p, hp, ht⟩ | ⟨x, hx, ht⟩)
  · -- the cursor
    rcases ha with ha | ⟨u, hu, ha⟩ | ⟨b, hb, ha⟩
    · omega
    · have h1 := h.aligned _ (h.apart.owned u (hus hu))
      have h2 : u.page ≠ cache := fun he => h.cache_new (he ▸ h.apart.owned u (hus hu))
      omega
    · obtain ⟨-, h2, h3⟩ := h.slot_place (h.node_slot (hsub b hb))
      omega
  · -- a header
    have h1 := h.aligned p (hP hp)
    have h2 : p ≠ cache := fun he => h.cache_new (he ▸ hP hp)
    rcases ha with ha | ⟨u, hu, ha⟩ | ⟨b, hb, ha⟩
    · omega
    · have h3 := h.aligned _ (h.apart.owned u (hus hu))
      have h4 : u.page ≠ p := fun he => hPu u hu (he ▸ hp)
      omega
    · obtain ⟨-, h3, -⟩ := h.slot_place (h.node_slot (hsub b hb))
      omega
  · -- a buffer
    obtain ⟨hxs, hxn⟩ := hX x hx
    obtain ⟨-, h1, h2⟩ := h.slot_place hxs
    rcases ha with ha | ⟨u, hu, ha⟩ | ⟨b, hb, ha⟩
    · omega
    · have h3 := h.aligned _ (h.apart.owned u (hus hu))
      omega
    · have h3 := hxs.apart h.aligned (h.node_slot (hsub b hb)) (fun he => hxn (he ▸ hb))
      omega

/-- **The cursor and the live buffers may be written.** -/
theorem CacheInv.write (hd : DiffersOn (touch size cache ∅ {x | x ∈ live}) m m') :
    CacheInv m' size cache owned vs live :=
  { h with
    rep := h.rep.congr (h.untouched (fun _ hu => hu) (Set.empty_subset _) (fun _ _ => Set.notMem_empty _)
      (fun _ hx => ⟨h.live_slot hx, h.live_not_node hx⟩) hd) }

end Inv

/-! ### The search -/

/-- The bytes of the cursor. -/
def cursor (cache : ℕ) : Set ℕ := Set.Ico (cacheSlabs cache) (cacheSlabs cache + 8)

/-- The header of `u` does not overlap the cursor. -/
def OffCursor (cache : ℕ) (u : View) : Prop := u.page + 4096 ≤ cache + 32 ∨ cache + 40 ≤ u.page + 4064

section Seek
variable {test : Mem → ℕ → Bool} {cache : ℕ} {v : View} {m : Mem}

theorem cursor_step {u : View} {vs : List View}
    (hcur : Chain (fun a => load64 m (slabNext a)) (load64 m (cacheSlabs cache))
      ((u :: vs).map fun v => header v.page)) (hoff : ∀ w ∈ u :: vs, OffCursor cache w) :
    load64 m (cacheSlabs cache) = header u.page ∧ header u.page ≠ 0 ∧
    DiffersOn (cursor cache) m (store64 m (cacheSlabs cache) (load64 m (slabNext (header u.page)))) ∧
    Chain (fun a => load64 (store64 m (cacheSlabs cache) (load64 m (slabNext (header u.page))))
      (slabNext a)) (load64 (store64 m (cacheSlabs cache) (load64 m (slabNext (header u.page))))
      (cacheSlabs cache)) (vs.map fun v => header v.page) := by
  rw [List.map_cons] at hcur
  obtain ⟨h1, h2, h3⟩ := chain_cons_iff.mp hcur
  rw [h1] at h2 h3
  have hd : DiffersOn (cursor cache) m
      (store64 m (cacheSlabs cache) (load64 m (slabNext (header u.page)))) :=
    differsOn_store64 (DiffersOn.refl _ _) fun _ h => h
  refine ⟨h1, h2, hd, ?_⟩
  rw [load64_store64 (load64_lt _ _)]
  refine h3.congr fun a ha => hd.load64 fun b hb => ?_
  obtain ⟨w, hw, rfl⟩ := List.mem_map.mp ha
  have hw := hoff w (List.mem_cons_of_mem _ hw)
  simp only [cursor, cacheSlabs, Set.mem_Ico] at hb
  simp only [slabNext, header, OffCursor] at hw ⊢
  omega

theorem seek_skip {pre rest : List View}
    (hcur : Chain (fun a => load64 m (slabNext a)) (load64 m (cacheSlabs cache))
      ((pre ++ rest).map fun v => header v.page)) (hoff : ∀ w ∈ pre ++ rest, OffCursor cache w)
    (hpre : ∀ u ∈ pre, ∀ m', DiffersOn (cursor cache) m m' → test m' (header u.page) = false) :
    ∃ m', DiffersOn (cursor cache) m m' ∧
      Chain (fun a => load64 m' (slabNext a)) (load64 m' (cacheSlabs cache))
        (rest.map fun v => header v.page) ∧
      ∀ fuel, seek test cache fuel m = seek test cache (fuel - pre.length) m' := by
  induction pre generalizing m with
  | nil => exact ⟨m, DiffersOn.refl _ _, hcur, fun _ => rfl⟩
  | cons u pre ih =>
    obtain ⟨h1, h2, h3, h4⟩ := cursor_step hcur hoff
    obtain ⟨m', h5, h6, h7⟩ := ih h4 (fun w hw => hoff w (List.mem_cons_of_mem _ hw))
      (fun w hw m' hm' => hpre w (List.mem_cons_of_mem _ hw) m' (h3.trans hm'))
    refine ⟨m', h3.trans h5, h6, fun fuel => ?_⟩
    cases fuel with
    | zero =>
      rw [Nat.zero_sub]
      rfl
    | succ fuel =>
      rw [seek, h1, if_neg h2, hpre u (List.mem_cons_self ..) m (DiffersOn.refl _ _), List.length_cons,
        Nat.add_sub_add_right, ← h7]
      rfl

variable (test)

/-- **The search stops at the first slab that passes the test.** -/
theorem seek_found {pre post : List View}
    (hcur : Chain (fun a => load64 m (slabNext a)) (load64 m (cacheSlabs cache))
      ((pre ++ v :: post).map fun v => header v.page))
    (hoff : ∀ w ∈ pre ++ v :: post, OffCursor cache w)
    (hpre : ∀ u ∈ pre, ∀ m', DiffersOn (cursor cache) m m' → test m' (header u.page) = false)
    (hv : ∀ m', DiffersOn (cursor cache) m m' → test m' (header v.page) = true) :
    ∃ m', DiffersOn (cursor cache) m m' ∧ load64 m' (cacheSlabs cache) = header v.page ∧
      ∀ fuel, seek test cache fuel m = .ok m' ∨
        fuel ≤ pre.length ∧ seek test cache fuel m = .error .outOfFuel := by
  obtain ⟨m', h1, h2, h3⟩ := seek_skip hcur hoff hpre
  obtain ⟨h4, h5, -⟩ := chain_cons_iff.mp h2
  refine ⟨m', h1, h4, fun fuel => ?_⟩
  rw [h3]
  cases hf : fuel - pre.length with
  | zero => exact Or.inr ⟨by omega, rfl⟩
  | succ n =>
    refine Or.inl ?_
    rw [seek, if_neg h5, h4, if_pos (hv m' h1)]

/-- **The search ends at NULL** if no slab passes the test. -/
theorem seek_none {vs : List View}
    (hcur : Chain (fun a => load64 m (slabNext a)) (load64 m (cacheSlabs cache))
      (vs.map fun v => header v.page))
    (hoff : ∀ w ∈ vs, OffCursor cache w)
    (hvs : ∀ u ∈ vs, ∀ m', DiffersOn (cursor cache) m m' → test m' (header u.page) = false) :
    ∃ m', DiffersOn (cursor cache) m m' ∧ load64 m' (cacheSlabs cache) = 0 ∧
      ∀ fuel, seek test cache fuel m = .ok m' ∨
        fuel ≤ vs.length ∧ seek test cache fuel m = .error .outOfFuel := by
  rw [← List.append_nil vs] at hcur hoff
  obtain ⟨m', h1, h2, h3⟩ := seek_skip hcur hoff hvs
  have h4 := chain_nil_iff.mp h2
  refine ⟨m', h1, h4, fun fuel => ?_⟩
  rw [h3]
  cases hf : fuel - vs.length with
  | zero => exact Or.inr ⟨by omega, rfl⟩
  | succ n => exact Or.inl (by rw [seek, if_pos h4])

end Seek

end FusionCore.Mm.SlabRep
