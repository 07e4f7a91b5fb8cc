import FusionCore.Mm.SlabGrow

/-! # Caches over a lawful page source

`slab_cache_grow`, `slab_cache_create`, `slab_cache_alloc` with growth and `slab_cache_reap`, with
the pages from a lawful source. `H` are the pages handed out, to the cache and to others; the memory
of the others' pages stays as it is. -/

namespace FusionCore.Mm.SlabLife

open FusionCore.Lib.ByteMem FusionCore.Lib.NullChain
open FusionCore.Mm.Defs FusionCore.Mm.Pages FusionCore.Mm.Slab FusionCore.Mm.SlabView
open FusionCore.Mm.SlabRep FusionCore.Mm.SlabOps FusionCore.Mm.SlabGrow

variable {σ : Type} {A : PageSource σ} {arena : Set ℕ} {Good : Machine σ → Set ℕ → Prop}
  {s s' : Machine σ} {H owned : Set ℕ} {m m' : Mem} {size cache p : ℕ} {vs : List View} {live : List ℕ}
  {flags : SlabFlags}

/-! ### The cache and its source -/

theorem inv_samePages (h : CacheInv m size cache owned vs live)
    (hs : SamePages (insert cache owned) m m') : CacheInv m' size cache owned vs live := by
  refine { h with rep := h.rep.congr fun a ha => ?_ }
  rcases ha with ha | ⟨u, hu, ha⟩ | ⟨b, hb, ha⟩
  · exact hs cache (Set.mem_insert _ _) (mem_page.mpr (by omega))
  · exact hs u.page (Set.mem_insert_of_mem _ (h.apart.owned u hu)) (mem_page.mpr (by omega))
  · have hsz := h.size_ge
    obtain ⟨h1, h2, -⟩ := h.slot_place (h.node_slot hb)
    exact hs _ (Set.mem_insert_of_mem _ h1) (mem_page.mpr (by omega))

theorem cursor_samePages (hs : SamePages (insert cache owned) m m') :
    load64 m' (cacheSlabs cache) = load64 m (cacheSlabs cache) :=
  load64_congr fun b hb => hs cache (Set.mem_insert _ _) <| by
    simp only [cacheSlabs, Set.mem_Ico, mem_page] at hb ⊢
    omega

/-- **A cache and its source**: the invariant, and the pages of the cache are handed out. -/
structure Owns (Good : Machine σ → Set ℕ → Prop) (s : Machine σ) (H : Set ℕ) (size cache : ℕ)
    (owned : Set ℕ) (vs : List View) (live : List ℕ) : Prop where
  inv : CacheInv s.mem size cache owned vs live
  good : Good s H
  handed : insert cache owned ⊆ H

/-- The memory of the pages handed out to others. -/
def Others (H : Set ℕ) (cache : ℕ) (owned : Set ℕ) : Set ℕ := H \ insert cache owned

section Life
variable (hL : Lawful A arena Good)
include hL

theorem pages_apart {p q a : ℕ} (hG : Good s H) (hp : p ∈ H) (hq : q ∈ H) (hne : p ≠ q)
    (ha : a ∈ page p) : a ∉ page q := by
  have h1 := (hL.pages (hL.handed hG hp)).1
  have h2 := (hL.pages (hL.handed hG hq)).1
  rw [mem_page] at ha ⊢
  omega

theorem owns_write {X : Set ℕ} {vs' : List View} {live' : List ℕ}
    (h : Owns Good s H size cache owned vs live) (hI : CacheInv m size cache owned vs' live')
    (hX : ∀ x ∈ X, IsSlot size owned x) (ht : DiffersOn (touch size cache owned X) s.mem m) :
    Owns Good { s with mem := m } H size cache owned vs' live' ∧
      SamePages (Others H cache owned) s.mem m := by
  have hd : DiffersOn (cacheBytes cache owned) s.mem m := ht.mono (touch_subset h.inv subset_rfl hX)
  refine ⟨⟨hI, hL.write h.good fun a ha => hd a ?_, h.handed⟩, fun q hq a ha => hd a ?_⟩
  · rintro ⟨p, hp, hap⟩
    exact ha p (hL.handed h.good (h.handed hp)) hap
  · rintro ⟨p, hp, hap⟩
    exact pages_apart hL h.good hq.1 (h.handed hp) (fun he => hq.2 (he ▸ hp)) ha hap

/-! ### Growth -/

omit hL in
/-- The source fails with the pages `H` handed out. -/
def Exhausted (A : PageSource σ) (Good : Machine σ → Set ℕ → Prop) (H : Set ℕ) : Prop :=
  ∃ s, Good s H ∧ (A.allocz s).1 = 0

/-- The slabs after growth at a slab `v` with the pages `ps`. -/
def growAt (size : ℕ) (ps : List ℕ) (pre : List View) (v : View) (post : List View) : List View :=
  if ps = [] then pre ++ v :: post else pre ++ [v] ++ ps.map (fresh size)

omit hL in
theorem growAt_cons {ps : List ℕ} {pre post : List View} {v : View} :
    growAt size ps (pre ++ [v]) (fresh size p) [] = growAt size (p :: ps) pre v post := by
  unfold growAt
  by_cases h : ps = []
  · simp [h]
  · simp [h]

/-- **`slab_create_bufctl`**: a page that is new and zeroed, or NULL. -/
theorem slabCreateBufctl_spec (hG : Good s H) :
    (∃ s₁, slabCreateBufctl A s = (0, s₁) ∧ Good s₁ H ∧ SamePages H s.mem s₁.mem ∧ Exhausted A Good H) ∨
    ∃ p s₁, p ≠ 0 ∧ slabCreateBufctl A s = (p, s₁) ∧ p ∉ H ∧ (∀ a ∈ page p, s₁.mem a = 0) ∧
      SamePages H s.mem s₁.mem ∧ Good s₁ (insert p H) := by
  unfold slabCreateBufctl
  by_cases h0 : (A.allocz s).1 = 0
  · obtain ⟨h1, h2⟩ := hL.exhausted hG h0
    exact Or.inl ⟨(A.allocz s).2, by simp [h0], h2, h1, s, hG, h0⟩
  · obtain ⟨h1, h2, h3, h4⟩ := hL.alloc hG h0
    -- `bufctl->next = NULL` writes what is there already
    have hd : DiffersOn (page (A.allocz s).1) (A.allocz s).2.mem
        (store64 (A.allocz s).2.mem (bufctlNext (A.allocz s).1) 0) :=
      differsOn_store64 (DiffersOn.refl _ _) fun b hb => by
        simp only [bufctlNext, Set.mem_Ico, mem_page] at hb ⊢; omega
    refine Or.inr ⟨(A.allocz s).1,
      { (A.allocz s).2 with mem := store64 (A.allocz s).2.mem (bufctlNext (A.allocz s).1) 0 }, h0,
      by simp [h0], h1, fun a ha => ?_, fun q hq a ha => ?_, ?_⟩
    · show store64 (A.allocz s).2.mem (bufctlNext (A.allocz s).1) 0 a = 0
      by_cases hb : a ∈ Set.Ico (bufctlNext (A.allocz s).1) (bufctlNext (A.allocz s).1 + 8)
      · obtain ⟨i, rfl⟩ := Nat.exists_eq_add_of_le hb.1
        have hi := hb.2
        rw [store64, store_of_mem (by omega)]
        simp
      · rw [store64_of_not_mem hb]
        exact h2 a ha
    · have hq' : a ∉ page (A.allocz s).1 :=
        pages_apart hL h4 (Set.mem_insert_of_mem _ hq) (Set.mem_insert _ _) (fun he => h1 (he ▸ hq)) ha
      exact (hd a hq').trans (h3 q hq ha)
    · exact hL.write h4 fun a ha => hd a (ha _ (hL.handed h4 (Set.mem_insert _ _)))

/-- A page is taken for a slab of the cache. -/
theorem createBufctl_spec (h : Owns Good s H size cache owned vs live) :
    (∃ s₁, slabCreateBufctl A s = (0, s₁) ∧ Owns Good s₁ H size cache owned vs live ∧
      SamePages H s.mem s₁.mem ∧ Exhausted A Good H) ∨
    ∃ p s₁, p ≠ 0 ∧ slabCreateBufctl A s = (p, s₁) ∧ p ∉ H ∧ NewPage cache p ∧
      (∀ a ∈ page p, s₁.mem a = 0) ∧ CacheInv s₁.mem size cache owned vs live ∧
      SamePages H s.mem s₁.mem ∧ Good s₁ (insert p H) := by
  rcases slabCreateBufctl_spec hL h.good with ⟨s₁, hr, hG, hs, hex⟩ | ⟨p, s₁, hp0, hr, hpH, hz, hs, hG⟩
  · exact Or.inl ⟨s₁, hr, ⟨inv_samePages h.inv (hs.mono h.handed), hG, h.handed⟩, hs, hex⟩
  · have hcH : cache ∈ H := h.handed (Set.mem_insert _ _)
    have hpo := hL.pages (hL.handed hG (Set.mem_insert _ _))
    exact Or.inr ⟨p, s₁, hp0, hr, hpH, ⟨hpo, h.inv.cache_ok.1, fun he => hpH (he ▸ hcH)⟩, hz,
      inv_samePages h.inv (hs.mono h.handed), hs, hG⟩

theorem owns_addSlab {us : List View} {bs : List View} (h : CacheInv m size cache owned vs live)
    (hG : Good s (insert p H)) (hm : s.mem = m) (hH : insert cache owned ⊆ H) (hp : p ∉ H)
    (hI : CacheInv (addSlab m cache p) size cache (insert p owned) us live)
    (hbs : ∀ b ∈ bs, b ∈ vs) (hd : DiffersOn (growBytes cache p bs) m (addSlab m cache p)) :
    Owns Good { s with mem := addSlab m cache p } (insert p H) size cache (insert p owned) us live ∧
      SamePages (Others H cache owned) m (addSlab m cache p) := by
  have hbytes : ∀ a ∈ growBytes cache p bs, ∃ q ∈ insert p (insert cache owned), a ∈ page q := by
    rintro a (ha | ha | ⟨u, hu, ha⟩)
    · exact ⟨p, Set.mem_insert _ _, ha⟩
    · exact ⟨cache, Set.mem_insert_of_mem _ (Set.mem_insert _ _), mem_page.mpr (by omega)⟩
    · exact ⟨u.page, Set.mem_insert_of_mem _ (Set.mem_insert_of_mem _ (h.apart.owned u (hbs u hu))),
        mem_page.mpr (by omega)⟩
  have hH' : insert p (insert cache owned) ⊆ insert p H := Set.insert_subset_insert hH
  generalize addSlab m cache p = M at hI hd ⊢
  refine ⟨⟨hI, hL.write hG fun a ha => ?_, ?_⟩, fun q hq a ha => hd a fun hb => ?_⟩
  · rw [hm]
    refine hd a fun hb => ?_
    obtain ⟨q, hq, haq⟩ := hbytes a hb
    exact ha q (hL.handed hG (hH' hq)) haq
  · rw [Set.insert_comm]
    exact hH'
  · obtain ⟨r, hr, har⟩ := hbytes a hb
    refine pages_apart hL hG (Set.mem_insert_of_mem _ hq.1) (hH' hr) ?_ ha har
    rintro rfl
    rcases hr with rfl | hr
    · exact hp hq.1
    · exact hq.2 hr

omit hL in
theorem others_subset (hp : p ∉ H) : Others H cache owned ⊆ Others (insert p H) cache
    (insert p owned) := by
  rintro q ⟨h1, h2⟩
  refine ⟨Set.mem_insert_of_mem _ h1, ?_⟩
  rintro (h | rfl | h)
  · exact h2 (Or.inl h)
  · exact hp h1
  · exact h2 (Or.inr h)

omit hL in
theorem insert_union_pages {S : Set ℕ} {ps : List ℕ} :
    insert p S ∪ {q | q ∈ ps} = S ∪ {q | q ∈ p :: ps} := by
  ext q
  simp only [Set.mem_union, Set.mem_insert_iff, Set.mem_ofPred_eq, List.mem_cons]
  tauto

/-- Fewer than `n` pages were got, and then the source failed. -/
def Short (A : PageSource σ) (Good : Machine σ → Set ℕ → Prop) (H : Set ℕ) (n : ℕ) (ps : List ℕ) : Prop :=
  ps.length < n ∧ Exhausted A Good (H ∪ {q | q ∈ ps})

omit hL in
theorem Short.cons {n : ℕ} {ps : List ℕ} (h : Short A Good (insert p H) n ps) :
    Short A Good H (n + 1) (p :: ps) := by
  obtain ⟨h1, h2⟩ := h
  rw [insert_union_pages] at h2
  exact ⟨Nat.succ_lt_succ h1, h2⟩

/-- What a call for `n` slabs comes to: it panics when the source fails, or it returns with some new
pages, fewer than `n` only without `SLAB_PANIC`. -/
def Grown (A : PageSource σ) (Good : Machine σ → Set ℕ → Prop) (flags : SlabFlags) (n : ℕ)
    (r : Except Halt (Machine σ)) (s : Machine σ) (H : Set ℕ) (size cache : ℕ) (owned : Set ℕ)
    (live : List ℕ) (result : List ℕ → List View) : Prop :=
  (∃ msg ps, r = .error (.panic msg) ∧ Short A Good H n ps) ∨
    ∃ s' ps, r = .ok s' ∧ Owns Good s' (H ∪ {q | q ∈ ps}) size cache (owned ∪ {q | q ∈ ps})
      (result ps) live ∧
      SamePages (Others H cache owned) s.mem s'.mem ∧
      (ps.length = n ∨ flags.panic = false ∧ Short A Good H n ps)

omit hL in
theorem growLoop_got {n : ℕ} {s₁ : Machine σ} (hr : slabCreateBufctl A s = (p, s₁)) (hp : p ≠ 0) :
    growLoop A flags cache (n + 1) s =
      growLoop A flags cache n { s₁ with mem := addSlab s₁.mem cache p } := by
  rw [growLoop, hr]
  simp only [if_neg hp]
  rfl

/-- **The loop of `slab_cache_grow`** at a slab. -/
theorem growLoop_spec (flags : SlabFlags) (n : ℕ) (pre : List View) {post : List View} {v : View}
    (h : Owns Good s H size cache owned (pre ++ v :: post) live)
    (hcur : load64 s.mem (cacheSlabs cache) = header v.page) :
    Grown A Good flags n (growLoop A flags cache n s) s H size cache owned live
      fun ps => growAt size ps pre v post := by
  induction n generalizing s H owned pre v post with
  | zero => exact Or.inr ⟨s, [], rfl, by simpa [growAt] using h, fun _ _ _ _ => rfl, Or.inl rfl⟩
  | succ n ih =>
    rcases createBufctl_spec hL h with
      ⟨s₁, hr, h₁, hs₁, hex⟩ | ⟨p, s₁, hp0, hr, hpH, hnew, hz, hI, hs₁, hG⟩
    · -- the source is exhausted
      unfold growLoop
      simp only [hr, if_true]
      have hshort : Short A Good H (n + 1) [] := ⟨Nat.succ_pos n, by simpa using hex⟩
      by_cases hf : flags.panic = true
      · exact Or.inl ⟨_, [], by rw [if_pos hf], hshort⟩
      · refine Or.inr ⟨s₁, [], by rw [if_neg hf], by simpa [growAt] using h₁, ?_,
          Or.inr ⟨eq_false_of_ne_true hf, hshort⟩⟩
        exact hs₁.mono fun q hq => hq.1
    · rw [growLoop_got hr hp0]
      have hcur₁ : load64 s₁.mem (cacheSlabs cache) = header v.page :=
        (cursor_samePages (hs₁.mono h.handed)).trans hcur
      have hpo : p ∉ owned := fun ho => hpH (h.handed (Set.mem_insert_of_mem _ ho))
      obtain ⟨hI₂, hcur₂, hd₂⟩ := addSlab_after hI hnew hpo hz hcur₁
      obtain ⟨h₂, hs₂⟩ := owns_addSlab hL hI hG rfl h.handed hpH hI₂
        (fun b hb => by rw [List.mem_singleton.mp hb]; simp) hd₂
      generalize addSlab s₁.mem cache p = M at hcur₂ h₂ hs₂ ⊢
      rcases ih _ h₂ hcur₂ with ⟨msg, ps, hpanic, hshort⟩ | ⟨s', ps, hok, h', hs', hlen⟩
      · exact Or.inl ⟨msg, p :: ps, hpanic, hshort.cons⟩
      · refine Or.inr ⟨s', p :: ps, hok, ?_, ?_, hlen.imp (congrArg Nat.succ) fun h => ⟨h.1, h.2.cons⟩⟩
        · show Owns Good s' _ size cache _ (growAt size (p :: ps) pre v post) live
          rw [← insert_union_pages, ← insert_union_pages, ← growAt_cons]
          exact h'
        · have ho : Others H cache owned ⊆ _ := others_subset hpH
          exact ((hs₁.mono fun q hq => hq.1).trans (fun _ hq => hq) hs₂).trans ho hs'

theorem growLoop_first {n : ℕ} (h : Owns Good s H size cache owned [] live)
    (hcur : load64 s.mem (cacheSlabs cache) = 0) :
    Grown A Good flags n (growLoop A flags cache n s) s H size cache owned live
      fun ps => ps.map (fresh size) := by
  cases n with
  | zero => exact Or.inr ⟨s, [], rfl, by simpa using h, fun _ _ _ _ => rfl, Or.inl rfl⟩
  | succ n =>
    rcases createBufctl_spec hL h with
      ⟨s₁, hr, h₁, hs₁, hex⟩ | ⟨p, s₁, hp0, hr, hpH, hnew, hz, hI, hs₁, hG⟩
    · unfold growLoop
      simp only [hr, if_true]
      have hshort : Short A Good H (n + 1) [] := ⟨Nat.succ_pos n, by simpa using hex⟩
      by_cases hf : flags.panic = true
      · exact Or.inl ⟨_, [], by rw [if_pos hf], hshort⟩
      · refine Or.inr ⟨s₁, [], by rw [if_neg hf], by simpa using h₁, ?_,
          Or.inr ⟨eq_false_of_ne_true hf, hshort⟩⟩
        exact hs₁.mono fun q hq => hq.1
    · rw [growLoop_got hr hp0]
      have hcur₁ : load64 s₁.mem (cacheSlabs cache) = 0 :=
        (cursor_samePages (hs₁.mono h.handed)).trans hcur
      have hpo : p ∉ owned := fun ho => hpH (h.handed (Set.mem_insert_of_mem _ ho))
      obtain ⟨hI₂, hcur₂, hd₂⟩ := addSlab_first hI hnew hpo hz hcur₁
      obtain ⟨h₂, hs₂⟩ := owns_addSlab hL hI hG rfl h.handed hpH hI₂ (by simp) hd₂
      generalize addSlab s₁.mem cache p = M at hcur₂ h₂ hs₂ ⊢
      rcases growLoop_spec hL flags n [] h₂ hcur₂ with
        ⟨msg, ps, hpanic, hshort⟩ | ⟨s', ps, hok, h', hs', hlen⟩
      · exact Or.inl ⟨msg, p :: ps, hpanic, hshort.cons⟩
      · refine Or.inr ⟨s', p :: ps, hok, ?_, ?_, hlen.imp (congrArg Nat.succ) fun h => ⟨h.1, h.2.cons⟩⟩
        · have he : growAt size ps [] (fresh size p) [] = (p :: ps).map (fresh size) := by
            by_cases hps : ps = [] <;> simp [growAt, hps]
          beta_reduce at h'
          rw [he, insert_union_pages, insert_union_pages] at h'
          exact h'
        · have ho : Others H cache owned ⊆ _ := others_subset hpH
          exact ((hs₁.mono fun q hq => hq.1).trans (fun _ hq => hq) hs₂).trans ho hs'

/-- **`slab_cache_grow`**: slabs are added behind the first one. -/
theorem grow_spec (flags : SlabFlags) (n : ℕ) (h : Owns Good s H size cache owned vs live) :
    Grown A Good flags n (slabCacheGrow A flags cache n s) s H size cache owned live
      fun ps => growBy size ps vs := by
  have hc0 : cache ≠ 0 := h.inv.cache_ok.2.1
  obtain ⟨hI₁, hd₁, hcur₁⟩ := rewind h.inv
  obtain ⟨h₁, hs₁⟩ := owns_write hL h hI₁ (X := ∅) (by simp) (hd₁.mono cursor_subset)
  unfold slabCacheGrow
  rw [if_neg hc0]
  have hend : ∀ {r result}, Grown A Good flags n r
      { s with mem := store64 s.mem (cacheSlabs cache) (load64 s.mem (cacheHead cache)) } H
        size cache owned live result → Grown A Good flags n r s H size cache owned live result := by
    rintro r result (hpanic | ⟨s', ps, hok, h', hs', hlen⟩)
    · exact Or.inl hpanic
    · exact Or.inr ⟨s', ps, hok, h', hs₁.trans (fun _ hq => hq) hs', hlen⟩
  refine hend ?_
  cases vs with
  | cons v vs =>
    obtain ⟨hcur, -, -⟩ := chain_cons_iff.mp hcur₁
    exact growLoop_spec hL flags n [] h₁ hcur
  | nil =>
    have hcur := chain_nil_iff.mp hcur₁
    simp only [growBy_nil]
    exact growLoop_first hL h₁ hcur

/-! ### Creation -/

/-- The fields `slab_cache_create` writes. -/
def writeCache (m : Mem) (cache name slabSize : ℕ) : Mem :=
  let m := store64 m (cacheName cache) name
  let m := store64 m (cacheSlabSize cache) slabSize
  let m := store64 m (cacheMax cache) ((4096 - 40) / load64 m (cacheSlabSize cache))
  store64 m (cacheSlabs cache) 0

omit hL in
theorem writeCache_spec (name : ℕ) (hs : size ≤ 512) (hz : ∀ a ∈ page cache, m a = 0) :
    load64 (writeCache m cache name size) (cacheSlabSize cache) = size ∧
    load64 (writeCache m cache name size) (cacheMax cache) = cap size ∧
    load64 (writeCache m cache name size) (cacheHead cache) = 0 ∧
    load64 (writeCache m cache name size) (cacheSlabs cache) = 0 ∧
    DiffersOn (page cache) m (writeCache m cache name size) := by
  have hsz : load64 (store64 (store64 m (cacheName cache) name) (cacheSlabSize cache) size)
      (cacheSlabSize cache) = size := load64_store64 (by omega)
  have hcap : (4096 - 40) / size < 2 ^ 64 := lt_of_le_of_lt (Nat.div_le_self _ _) (by norm_num)
  have hhead : load64 m (cacheHead cache) = 0 := load64_eq_zero fun b hb => hz b <| by
    simp only [cacheHead, Set.mem_Ico, mem_page] at hb ⊢
    omega
  unfold writeCache
  dsimp only
  rw [hsz]
  refine ⟨?_, ?_, ?_, load64_store64 (by norm_num), ?_⟩
  · rw [load64_store64_of_disjoint (by unfold cacheSlabs cacheSlabSize; omega),
      load64_store64_of_disjoint (by unfold cacheMax cacheSlabSize; omega), hsz]
  · rw [load64_store64_of_disjoint (by unfold cacheSlabs cacheMax; omega), load64_store64 hcap]
    rfl
  · rw [load64_store64_of_disjoint (by unfold cacheSlabs cacheHead; omega),
      load64_store64_of_disjoint (by unfold cacheMax cacheHead; omega),
      load64_store64_of_disjoint (by unfold cacheSlabSize cacheHead; omega),
      load64_store64_of_disjoint (by unfold cacheName cacheHead; omega), hhead]
  · have hsub : ∀ k, k + 8 ≤ 40 → Set.Ico (cache + k) (cache + k + 8) ⊆ page cache := fun k hk b hb => by
      rw [Set.mem_Ico] at hb
      exact mem_page.mpr (by omega)
    exact differsOn_store64 (differsOn_store64 (differsOn_store64 (differsOn_store64
      (DiffersOn.refl _ _) (hsub 0 (by norm_num))) (hsub 8 (by norm_num))) (hsub 16 (by norm_num)))
      (hsub 32 le_rfl)

omit hL in
theorem slabCacheCreate_eq {name : ℕ} (hs : size ≤ 512) (hpow : isPowerOfTwo size = true) :
    slabCacheCreate A flags name size s =
      if (A.allocz s).1 = 0 then
        if flags.panic then .error (.panic "slab_cache_create('%s'): Couldn't allocate memory\n")
        else .ok (0, (A.allocz s).2)
      else
        match slabCacheGrow A flags (A.allocz s).1 1
          { (A.allocz s).2 with mem := writeCache (A.allocz s).2.mem (A.allocz s).1 name size } with
        | .error e => .error e
        | .ok s' => .ok ((A.allocz s).1, s') := by
  unfold slabCacheCreate
  rw [if_neg (not_not.mpr hs), if_neg (by simp [hpow])]
  rfl

theorem emptyCache_owns (name : ℕ) (hs : 16 ≤ size) (hle : size ≤ 512) (hG : Good s H)
    (h0 : (A.allocz s).1 ≠ 0) :
    Owns Good { (A.allocz s).2 with mem := writeCache (A.allocz s).2.mem (A.allocz s).1 name size }
        (insert (A.allocz s).1 H) size (A.allocz s).1 ∅ [] [] ∧
      SamePages H s.mem (writeCache (A.allocz s).2.mem (A.allocz s).1 name size) := by
  obtain ⟨h1, h2, h3, h4⟩ := hL.alloc hG h0
  obtain ⟨w1, w2, w3, w4, w5⟩ := writeCache_spec name hle h2
  have hpo := hL.pages (hL.handed h4 (Set.mem_insert _ _))
  have hI : CacheInv (writeCache (A.allocz s).2.mem (A.allocz s).1 name size) size (A.allocz s).1 ∅ []
      [] := by
    refine ⟨⟨w1, w2, ?_, by simp, by simp⟩, ⟨by simp [nodes], by simp [nodes], by simp, by simp, by simp⟩,
      ?_, Set.notMem_empty _, hs, hle⟩
    · rw [w3]
      exact .nil
    · rintro p (rfl | hp)
      · exact hpo
      · exact absurd hp (Set.notMem_empty _)
  refine ⟨⟨hI, hL.write h4 fun a ha => w5 a (ha _ (hL.handed h4 (Set.mem_insert _ _))), ?_⟩, ?_⟩
  · rintro p (rfl | hp)
    · exact Set.mem_insert _ _
    · exact absurd hp (Set.notMem_empty _)
  · intro q hq a ha
    exact (w5 a (pages_apart hL h4 (Set.mem_insert_of_mem _ hq) (Set.mem_insert _ _)
      (fun he => h1 (he ▸ hq)) ha)).trans (h3 q hq ha)

omit hL in
theorem asserted {name : ℕ} (hok : slabCacheCreate A flags name size s = .ok (cache, s')) :
    size ≤ 512 ∧ isPowerOfTwo size = true := by
  have hle : size ≤ 512 := by
    by_contra hn
    rw [slabCacheCreate, if_pos hn] at hok
    cases hok
  refine ⟨hle, ?_⟩
  by_contra hn
  rw [slabCacheCreate, if_neg (not_not.mpr hle), if_pos hn] at hok
  cases hok

/-- **`slab_cache_create`**: a cache with the slabs it could get, one with `SLAB_PANIC`. -/
theorem create_spec {name : ℕ} (hs : 16 ≤ size) (hG : Good s H) (hc0 : cache ≠ 0)
    (hok : slabCacheCreate A flags name size s = .ok (cache, s')) :
    cache ∉ H ∧ ∃ ps : List ℕ, Owns Good s' (insert cache H ∪ {q | q ∈ ps}) size cache {q | q ∈ ps}
      (ps.map (fresh size)) [] ∧ SamePages H s.mem s'.mem ∧ (flags.panic = true → ps.length = 1) := by
  obtain ⟨hle, hpow⟩ := asserted hok
  rw [slabCacheCreate_eq hle hpow] at hok
  split_ifs at hok with h0 hp
  · cases hok
    exact absurd rfl hc0
  · have h1 := (hL.alloc hG h0).1
    obtain ⟨hown, hsame⟩ := emptyCache_owns hL name hs hle hG h0
    rcases grow_spec hL flags 1 hown with ⟨msg, ps, hpanic, -⟩ | ⟨s₂, ps, hok₂, h₂, hs₂, hlen⟩
    · rw [hpanic] at hok
      cases hok
    · rw [hok₂] at hok
      cases hok
      refine ⟨h1, ps, ?_, hsame.trans ?_ hs₂, fun hf => hlen.resolve_right fun hn => by simp [hf] at hn⟩
      · beta_reduce at h₂
        rw [growBy_nil, Set.empty_union] at h₂
        exact h₂
      · intro q hq
        refine ⟨Set.mem_insert_of_mem _ hq, ?_⟩
        rintro (rfl | hq')
        · exact h1 hq
        · exact absurd hq' (Set.notMem_empty _)

omit hL in
/-- The record of a new cache when the loop of `slab_cache_grow` starts. -/
def blankCache (m : Mem) (cache name slabSize : ℕ) : Mem :=
  store64 (writeCache m cache name slabSize) (cacheSlabs cache) 0

/-- **`slab_cache_create` up to the loop**, for buffers of any size. -/
theorem create_loop (flags : SlabFlags) (name : ℕ) (hle : size ≤ 512) (hpow : isPowerOfTwo size = true)
    (hG : Good s H) (h0 : (A.allocz s).1 ≠ 0) :
    let m := blankCache (A.allocz s).2.mem (A.allocz s).1 name size
    slabCacheCreate A flags name size s =
      (growLoop A flags (A.allocz s).1 1 { (A.allocz s).2 with mem := m }).map (Prod.mk (A.allocz s).1) ∧
    Good { (A.allocz s).2 with mem := m } (insert (A.allocz s).1 H) ∧
    DiffersOn (page (A.allocz s).1) (A.allocz s).2.mem m ∧
    load64 m (cacheSlabSize (A.allocz s).1) = size ∧ load64 m (cacheMax (A.allocz s).1) = cap size ∧
    load64 m (cacheSlabs (A.allocz s).1) = 0 := by
  obtain ⟨-, h2, -, h4⟩ := hL.alloc hG h0
  obtain ⟨w1, w2, w3, -, w5⟩ := writeCache_spec name hle h2
  intro m
  have hd : DiffersOn (page (A.allocz s).1) (A.allocz s).2.mem m := differsOn_store64 w5 fun b hb => by
    simp only [cacheSlabs, Set.mem_Ico, mem_page] at hb ⊢; omega
  refine ⟨?_, hL.write h4 fun a ha => hd a (ha _ (hL.handed h4 (Set.mem_insert _ _))), hd,
    (load64_store64_of_disjoint (by unfold cacheSlabs cacheSlabSize; omega)).trans w1,
    (load64_store64_of_disjoint (by unfold cacheSlabs cacheMax; omega)).trans w2,
    load64_store64 (by norm_num)⟩
  rw [slabCacheCreate_eq hle hpow, if_neg h0, slabCacheGrow, if_neg h0, w3]
  show (match growLoop A flags (A.allocz s).1 1 { (A.allocz s).2 with mem := m } with
    | .error e => Except.error e
    | .ok s' => Except.ok ((A.allocz s).1, s')) = _
  cases growLoop A flags (A.allocz s).1 1 { (A.allocz s).2 with mem := m } <;> rfl

/-- **`slab_cache_create` with `SLAB_PANIC`, for buffers of any size**: two new pages, the size in
the record of the cache, the head and the cursor at the slab, and the memory of the other pages as it
was. -/
theorem create_frame {name : ℕ} (hf : flags.panic = true) (hG : Good s H)
    (hok : slabCacheCreate A flags name size s = .ok (cache, s')) :
    cache ∉ H ∧ ∃ p, p ∉ insert cache H ∧ Good s' (insert p (insert cache H)) ∧ SamePages H s.mem s'.mem ∧
      load64 s'.mem (cacheSlabSize cache) = size ∧ load64 s'.mem (cacheHead cache) = header p ∧
      load64 s'.mem (cacheSlabs cache) = header p := by
  obtain ⟨hle, hpow⟩ := asserted hok
  have h0 : (A.allocz s).1 ≠ 0 := by
    intro h0
    rw [slabCacheCreate_eq hle hpow, if_pos h0, if_pos hf] at hok
    cases hok
  obtain ⟨h1, -, h3, h4⟩ := hL.alloc hG h0
  have hc := hL.pages (hL.handed h4 (Set.mem_insert _ _))
  obtain ⟨heq, hG₂, hd₂, hsize₂, hmax₂, hcur₂⟩ := create_loop hL flags name hle hpow hG h0
  rw [heq] at hok
  generalize blankCache (A.allocz s).2.mem (A.allocz s).1 name size = m₂ at *
  generalize A.allocz s = r at *
  rcases slabCreateBufctl_spec hL hG₂ with ⟨s₃, hr, -⟩ | ⟨p, s₃, hp0, hr, hpH, -, hs₃, hG₃⟩
  · rw [growLoop, hr] at hok
    simp [hf, Except.map] at hok
  rw [growLoop_got hr hp0, growLoop] at hok
  cases hok
  have hw : ∀ k, k + 8 ≤ 4096 → load64 s₃.mem (r.1 + k) = load64 m₂ (r.1 + k) := fun k hk =>
    load64_congr fun b hb => hs₃ r.1 (Set.mem_insert _ _) <| by
      simp only [Set.mem_Ico, mem_page] at hb ⊢; omega
  have hpo := hL.pages (hL.handed hG₃ (Set.mem_insert _ _))
  have hne : r.1 ≠ p := fun he => hpH (he ▸ Set.mem_insert _ _)
  obtain ⟨hd, hhead, hcur⟩ := addSlab_frame ⟨hpo, hc.1, hne⟩ ((hw 8 (by norm_num)).trans hsize₂)
    ((hw 16 (by norm_num)).trans hmax₂) ((hw 32 (by norm_num)).trans hcur₂)
  have hbytes : ∀ a ∈ growBytes r.1 p [], a ∈ page p ∨ a ∈ page r.1 := by
    rintro a (ha | ha | ⟨u, hu, -⟩)
    · exact Or.inl ha
    · exact Or.inr (mem_page.mpr (by omega))
    · cases hu
  generalize addSlab s₃.mem r.1 p = M at hd hhead hcur ⊢
  refine ⟨h1, p, hpH, hL.write hG₃ fun a ha => hd a fun hb => ?_, fun q hq a ha => ?_, ?_, hhead, hcur⟩
  · rcases hbytes a hb with hb | hb
    · exact ha p (hL.handed hG₃ (Set.mem_insert _ _)) hb
    · exact ha r.1 (hL.handed h4 (Set.mem_insert _ _)) hb
  · have hqc := pages_apart hL h4 (Set.mem_insert_of_mem _ hq) (Set.mem_insert _ _)
      (fun he => h1 (he ▸ hq)) ha
    have hqp := pages_apart hL hG₃ (Set.mem_insert_of_mem _ (Set.mem_insert_of_mem _ hq))
      (Set.mem_insert _ _) (fun he => hpH (he ▸ Set.mem_insert_of_mem _ hq)) ha
    calc M a = s₃.mem a := hd a fun hb => (hbytes a hb).elim hqp hqc
      _ = m₂ a := hs₃ q (Set.mem_insert_of_mem _ hq) ha
      _ = r.2.mem a := hd₂ a hqc
      _ = s.mem a := h3 q hq ha
  · refine (hd.load64 fun b hb => ?_).trans ((hw 8 (by norm_num)).trans hsize₂)
    unfold cacheSlabSize
    rcases hb with hb | hb | ⟨u, hu, -⟩
    · rw [mem_page] at hb
      omega
    · omega
    · cases hu

theorem create_returns (flags : SlabFlags) (name : ℕ) (hle : size ≤ 512) (hpow : isPowerOfTwo size = true)
    (hG : Good s H) (h0 : (A.allocz s).1 ≠ 0) (h1 : ¬ Exhausted A Good (insert (A.allocz s).1 H)) :
    ∃ s', slabCacheCreate A flags name size s = .ok ((A.allocz s).1, s') := by
  obtain ⟨heq, hG₂, -⟩ := create_loop hL flags name hle hpow hG h0
  rw [heq]
  rcases slabCreateBufctl_spec hL hG₂ with ⟨-, -, -, -, hex⟩ | ⟨p, s₃, hp0, hr, -⟩
  · exact absurd hex h1
  · rw [growLoop_got hr hp0]
    exact ⟨_, rfl⟩

/-! ### Allocation and release -/

/-- **`slab_cache_grow`** keeps the invariant. -/
theorem grow_owns {n : ℕ} (h : Owns Good s H size cache owned vs live)
    (hok : slabCacheGrow A flags cache n s = .ok s') :
    ∃ H' owned' vs', Owns Good s' H' size cache owned' vs' live ∧ (Local vs → Local vs') := by
  rcases grow_spec hL flags n h with ⟨msg, ps, hpanic, -⟩ | ⟨s₂, ps, hok₂, h₂, -⟩
  · rw [hpanic] at hok
    cases hok
  · rw [hok₂] at hok
    cases hok
    exact ⟨_, _, _, h₂, fun hl => hl.growBy fun p hp => h₂.inv.aligned p (Or.inr hp)⟩

/-- **`slab_cache_alloc`** returns NULL or a buffer that is not live, and keeps the invariant. -/
theorem alloc_owns {fuel a : ℕ} (h : Owns Good s H size cache owned vs live)
    (hok : slabCacheAlloc A flags cache fuel s = .ok (a, s')) :
    ∃ H' owned' vs', (Local vs → Local vs') ∧
      ((a = 0 ∧ Owns Good s' H' size cache owned' vs' live) ∨
        (a ≠ 0 ∧ a ∉ live ∧ Owns Good s' H' size cache owned' vs' (a :: live))) := by
  induction fuel generalizing s H owned vs with
  | zero => cases hok
  | succ fuel ih =>
    cases ht : takeFirst vs with
    | some r =>
      obtain ⟨b, vs'⟩ := r
      obtain ⟨m', hI, hd, hres⟩ := alloc_take A h.inv ht
      rcases hres flags (fuel + 1) with hres | ⟨-, hres⟩
      · rw [hres] at hok
        cases hok
        have hb := hI.slot_place (hI.live_slot (List.mem_cons_self ..))
        have hb0 := hI.pages _ (Set.mem_insert_of_mem _ hb.1)
        refine ⟨H, owned, vs', fun hl => hl.take ht, Or.inr ⟨by omega, h.inv.apart.not_live ht, ?_⟩⟩
        exact (owns_write hL h hI (by simp) hd).1
      · rw [hres] at hok
        cases hok
    | none =>
      obtain ⟨m', hI, hd, hres⟩ := alloc_none A h.inv ht
      rcases hres flags fuel with hres | ⟨-, hres⟩
      swap
      · rw [hres] at hok
        cases hok
      have h₁ := (owns_write hL h hI (by simp) hd).1
      rw [hres] at hok
      split_ifs at hok with hg hp
      · cases hgr : slabCacheGrow A flags cache 1 { s with mem := m' } with
        | error e => rw [hgr] at hok; cases hok
        | ok s₂ =>
          rw [hgr] at hok
          obtain ⟨H₂, owned₂, vs₂, h₂, hl₂⟩ := grow_owns hL h₁ hgr
          obtain ⟨H', owned', vs', hl', h'⟩ := ih h₂ hok
          exact ⟨H', owned', vs', fun hl => hl' (hl₂ hl), h'⟩
      · cases hok
        exact ⟨H, owned, vs, id, Or.inl ⟨rfl, h₁⟩⟩

/-- **`slab_cache_free`** keeps the invariant. -/
theorem free_owns {fuel a : ℕ} (h : Owns Good s H size cache owned vs live) (ha : a ∈ live)
    (hok : slabCacheFree flags cache a fuel s = .ok s') :
    Owns Good s' H size cache owned ((putFirst (cap size) a vs).getD vs) (live.erase a) := by
  obtain ⟨m', hI, hd, hres⟩ := free_put h.inv ha
  rcases hres flags fuel with hres | ⟨-, hres⟩
  · rw [hres] at hok
    split_ifs at hok
    cases hok
    exact (owns_write hL h hI (by simpa using h.inv.live_slot ha) hd).1
  · rw [hres] at hok
    cases hok

theorem write_owns (h : Owns Good s H size cache owned vs live)
    (hd : DiffersOn {a | ∃ x ∈ live, x ≤ a ∧ a < x + size} s.mem m) :
    Owns Good { s with mem := m } H size cache owned vs live := by
  have hd' : DiffersOn (touch size cache ∅ {x | x ∈ live}) s.mem m :=
    hd.mono fun a ha => Or.inr (Or.inr ha)
  exact (owns_write hL h (h.inv.write hd') (fun x hx => h.inv.live_slot hx)
    (hd'.mono (touch_mono (Set.empty_subset _)))).1

end Life

end FusionCore.Mm.SlabLife
