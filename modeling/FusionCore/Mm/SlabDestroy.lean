import FusionCore.Mm.SlabSpec

/-! # Destruction of a slab cache

`slab_cache_destroy` frees slab by slab, each through the head of its free list, and stops at the
first slab that is not completely free. What it frees is read off the list by `walk`. The call is all
or nothing (`AllOrNothing`) exactly if the first slab already stops it, or no slab does and the heads
of the free lists lie one in each page (`destroy_iff_clean`). -/

namespace FusionCore.Mm.SlabDestroy

open FusionCore.Lib.ByteMem FusionCore.Lib.NullChain FusionCore.Lib.Runs
open FusionCore.Mm.Defs FusionCore.Mm.Phys FusionCore.Mm.Pages FusionCore.Mm.PhysPages
open FusionCore.Mm.Slab FusionCore.Mm.SlabView FusionCore.Mm.SlabRep FusionCore.Mm.SlabOps
open FusionCore.Mm.SlabLife FusionCore.Mm.SlabReap FusionCore.Mm.SlabSpec
open FusionCore.Mm.PhysSpec (smallMap)

/-- The page an address lies in. -/
def pageOf (a : ℕ) : ℕ := a / 4096 * 4096

theorem pageOf_header {p : ℕ} (hp : p % 4096 = 0) : pageOf (header p) = p := by
  unfold pageOf header
  omega

theorem pageOf_of_aligned {p : ℕ} (hp : p % 4096 = 0) : pageOf p = p := by
  unfold pageOf
  omega

/-! ### What is freed -/

/-- The heads of the free lists up to the first slab with fewer than `c` free buffers, and whether
there is no such slab. -/
def walk (c : ℕ) : List View → Bool × List ℕ
  | [] => (true, [])
  | v :: vs =>
    if v.free.length = c then ((walk c vs).1, v.free.headD 0 :: (walk c vs).2) else (false, [])

section Walk
variable {c : ℕ}

theorem walk_of_full : ∀ {vs : List View}, (∀ v ∈ vs, v.free.length = c) →
    walk c vs = (true, vs.map fun v => v.free.headD 0)
  | [], _ => rfl
  | v :: vs, h => by
    rw [walk, if_pos (h v (by simp)), walk_of_full fun u hu => h u (by simp [hu])]
    rfl

theorem full_of_walk : ∀ {vs : List View}, (walk c vs).1 = true → ∀ v ∈ vs, v.free.length = c
  | [], _ => by simp
  | v :: vs, h => by
    rw [walk] at h
    split_ifs at h with hv
    intro u hu
    rcases List.mem_cons.mp hu with rfl | hu
    · exact hv
    · exact full_of_walk h u hu

theorem mem_walk {a : ℕ} : ∀ {vs : List View}, a ∈ (walk c vs).2 →
    ∃ v ∈ vs, v.free.length = c ∧ a = v.free.headD 0
  | [], h => by cases h
  | v :: vs, h => by
    rw [walk] at h
    split_ifs at h with hv
    · rcases List.mem_cons.mp h with rfl | h
      · exact ⟨v, by simp, hv, rfl⟩
      · obtain ⟨u, hu, h1, h2⟩ := mem_walk h
        exact ⟨u, by simp [hu], h1, h2⟩
    · cases h

theorem walk_length_le : ∀ vs : List View, (walk c vs).2.length ≤ vs.length
  | [] => le_rfl
  | v :: vs => by
    rw [walk]
    split_ifs
    · simpa using walk_length_le vs
    · exact Nat.zero_le _

end Walk

/-! ### The loop -/

section Loop
variable {σ : Type} {A : PageSource σ} {arena : Set ℕ} {Good : Machine σ → Set ℕ → Prop}
  {s s' : Machine σ} {G O : Set ℕ} {size cache : ℕ} {vs done rest : List View} {v : View} {live : List ℕ}
  {flags : SlabFlags}

theorem head_of_full (h : CacheInv s.mem size cache O vs live) (hv : v ∈ vs)
    (hfull : v.free.length = cap size) :
    load64 s.mem (slabFreeHead (header v.page)) = v.free.headD 0 ∧
    v.free.headD 0 ∈ page (pageOf (v.free.headD 0)) ∧
      pageOf (v.free.headD 0) ∈ O := by
  have hsize := h.size_ge
  have hcap : 0 < cap size := Nat.div_pos (by have := h.size_le; omega) (by omega)
  refine ⟨(h.rep.free v hv).head_eq, by rw [mem_page]; unfold pageOf; omega, ?_⟩
  obtain ⟨a, l, hf⟩ := List.exists_cons_of_ne_nil
    (List.ne_nil_of_length_pos (by omega : 0 < v.free.length))
  rw [hf, List.headD_cons]
  exact (h.slot_place (h.node_slot (mem_nodes.mpr ⟨v, hv, by simp [hf]⟩))).1

/-- The free and the move of the cursor for one slab. -/
def freeSlab (A : PageSource σ) (cache ptr : ℕ) (s : Machine σ) : Machine σ :=
  { A.free s ptr with mem := store64 (A.free s ptr).mem (cacheSlabs cache) (load64 (A.free s ptr).mem
      (slabNext (load64 (A.free s ptr).mem (cacheSlabs cache)))) }

theorem destroyLoop_full {fuel : ℕ} (h : CacheInv s.mem size cache O vs live) (hv : v ∈ vs)
    (hcur : load64 s.mem (cacheSlabs cache) = header v.page) (hfull : v.free.length = cap size) :
    destroyLoop A flags cache (fuel + 1) s =
      (destroyLoop A flags cache fuel (freeSlab A cache (v.free.headD 0) s)).map
        fun r => (r.1, r.2.1, v.free.headD 0 :: r.2.2) := by
  have h0 : header v.page ≠ 0 := by unfold header; omega
  have hcount : load64 s.mem (slabCount (header v.page)) = load64 s.mem (cacheMax cache) := by
    rw [h.rep.count v hv, h.rep.max_eq, hfull]
  rw [destroyLoop]
  dsimp only
  rw [hcur, if_neg h0, if_neg (not_not.mpr hcount), (head_of_full h hv hfull).1, ← freeSlab]
  cases destroyLoop A flags cache fuel (freeSlab A cache (v.free.headD 0) s) with
  | error e => rfl
  | ok r => rfl

theorem destroyLoop_stop {fuel : ℕ} (hp : flags.panic = false) (h : CacheInv s.mem size cache O vs live)
    (hv : v ∈ vs) (hcur : load64 s.mem (cacheSlabs cache) = header v.page)
    (hfull : v.free.length ≠ cap size) :
    destroyLoop A flags cache (fuel + 1) s = .ok (false, s, []) := by
  have h0 : header v.page ≠ 0 := by unfold header; omega
  have hcount : load64 s.mem (slabCount (header v.page)) ≠ load64 s.mem (cacheMax cache) := by
    rw [h.rep.count v hv, h.rep.max_eq]
    exact hfull
  rw [destroyLoop]
  dsimp only
  rw [hcur, if_neg h0, if_pos hcount, if_neg (by simp [hp])]

variable (hL : Lawful A arena Good)
include hL

/-- **One slab is freed**, through a page that is handed out. -/
theorem freeSlab_spec {a : ℕ} (h : CacheInv s.mem size cache O (done ++ v :: rest) live) (hG : Good s G)
    (hO : insert cache O ⊆ arena) (ha : a ∈ page (pageOf a)) (hpa : pageOf a ∈ G)
    (hcur : Chain (fun a => load64 s.mem (slabNext a)) (load64 s.mem (cacheSlabs cache))
      ((v :: rest).map fun v => header v.page)) :
    CacheInv (freeSlab A cache a s).mem size cache O (done ++ [v] ++ rest) live ∧
      Good (freeSlab A cache a s) (G \ {pageOf a}) ∧
      Chain (fun a' => load64 (freeSlab A cache a s).mem (slabNext a'))
        (load64 (freeSlab A cache a s).mem (cacheSlabs cache)) (rest.map fun v => header v.page) := by
  obtain ⟨hsame, hG₁⟩ := hL.free hG hpa ha
  unfold freeSlab
  generalize A.free s a = s₁ at hsame hG₁ ⊢
  have h₁ := inv_samePages h (hsame.mono hO)
  have hcur₁ : Chain (fun a => load64 s₁.mem (slabNext a)) (load64 s₁.mem (cacheSlabs cache))
      ((v :: rest).map fun v => header v.page) := by
    rw [cursor_samePages (hsame.mono hO)]
    refine hcur.congr fun x hx => ?_
    obtain ⟨w, hw, rfl⟩ := List.mem_map.mp hx
    have hwO := h.apart.owned w (List.mem_append_right _ hw)
    refine load64_congr fun b hb => hsame _ (hO (Set.mem_insert_of_mem _ hwO)) ?_
    simp only [slabNext, header, Set.mem_Ico, mem_page] at hb ⊢
    omega
  obtain ⟨hv, -, hd, hnext⟩ := cursor_step hcur₁ fun w hw => offCursor h₁ w (List.mem_append_right _ hw)
  rw [hv]
  refine ⟨?_, good_cursor hL hG₁ (hO (Set.mem_insert _ _)) hd, hnext⟩
  rw [List.append_assoc]
  exact of_cursor h₁ hd

/-- **The loop frees what `walk` says**, if that lies in different pages that are handed out. -/
theorem destroyLoop_frees (hp : flags.panic = false) (rest : List View) (done : List View) (fuel : ℕ)
    (hfuel : rest.length < fuel) (h : CacheInv s.mem size cache O (done ++ rest) live) (hG : Good s G)
    (hO : insert cache O ⊆ arena)
    (hcur : Chain (fun a => load64 s.mem (slabNext a)) (load64 s.mem (cacheSlabs cache))
      (rest.map fun v => header v.page))
    (hnd : ((walk (cap size) rest).2.map pageOf).Nodup)
      (hin : ∀ a ∈ (walk (cap size) rest).2, pageOf a ∈ G) :
    ∃ s', destroyLoop A flags cache fuel s = .ok ((walk (cap size) rest).1, s',
      (walk (cap size) rest).2) := by
  induction rest generalizing fuel done s G with
  | nil =>
    obtain ⟨fuel, rfl⟩ := Nat.exists_eq_succ_of_ne_zero
      (Nat.ne_of_gt (lt_of_le_of_lt (Nat.zero_le _) hfuel))
    exact ⟨s, by rw [destroyLoop, if_pos (chain_nil_iff.mp hcur)]; rfl⟩
  | cons v rest ih =>
    obtain ⟨fuel, rfl⟩ := Nat.exists_eq_succ_of_ne_zero
      (Nat.ne_of_gt (lt_of_le_of_lt (Nat.zero_le _) hfuel))
    have hv : v ∈ done ++ v :: rest := by simp
    have hhead := (chain_cons_iff.mp hcur).1
    by_cases hfull : v.free.length = cap size
    · rw [walk, if_pos hfull] at hnd hin ⊢
      obtain ⟨-, ha, -⟩ := head_of_full h hv hfull
      obtain ⟨h₁, hG₁, hcur₁⟩ := freeSlab_spec hL h hG hO ha (hin _ (by simp)) hcur
      rw [destroyLoop_full h hv hhead hfull]
      rw [List.map_cons, List.nodup_cons] at hnd
      obtain ⟨s', hs'⟩ := ih (done ++ [v]) fuel (by simpa using hfuel) h₁ hG₁ hcur₁ hnd.2
        fun b hb => ⟨hin b (by simp [hb]), fun he => hnd.1 (List.mem_map.mpr ⟨b, hb, he⟩)⟩
      exact ⟨s', by rw [hs']; rfl⟩
    · rw [walk, if_neg hfull]
      exact ⟨s, destroyLoop_stop hp h hv hhead hfull⟩

/-- **What the loop has freed when it returns**: what `walk` says, or some page twice. -/
theorem freed_of_destroyLoop (hp : flags.panic = false) (rest : List View) (done : List View)
    (prev : List ℕ) (fuel : ℕ) {b : Bool} {freed : List ℕ}
    (h : CacheInv s.mem size cache O (done ++ rest) live)
    (hG : Good s (G \ {q | q ∈ prev.map pageOf})) (hO : insert cache O ⊆ arena) (hOG : O ⊆ G)
    (hcur : Chain (fun a => load64 s.mem (slabNext a)) (load64 s.mem (cacheSlabs cache))
      (rest.map fun v => header v.page))
    (hok : destroyLoop A flags cache fuel s = .ok (b, s', freed)) :
    (b, freed) = walk (cap size) rest ∨ ¬ ((prev ++ freed).map pageOf).Nodup := by
  induction rest generalizing fuel done prev s b freed with
  | nil =>
    cases fuel with
    | zero => cases hok
    | succ fuel =>
      rw [destroyLoop, if_pos (chain_nil_iff.mp hcur)] at hok
      cases hok
      exact Or.inl rfl
  | cons v rest ih =>
    cases fuel with
    | zero => cases hok
    | succ fuel =>
      have hv : v ∈ done ++ v :: rest := by simp
      have hhead := (chain_cons_iff.mp hcur).1
      by_cases hfull : v.free.length = cap size
      swap
      · rw [destroyLoop_stop hp h hv hhead hfull] at hok
        cases hok
        exact Or.inl (by rw [walk, if_neg hfull])
      obtain ⟨-, ha, hpO⟩ := head_of_full h hv hfull
      rw [destroyLoop_full h hv hhead hfull] at hok
      obtain ⟨⟨b', s₂, freed'⟩, hr, heq⟩ := map_eq_ok hok
      cases heq
      by_cases hmem : pageOf (v.free.headD 0) ∈ prev.map pageOf
      · -- the page has been freed before
        refine Or.inr fun hnd => ?_
        rw [List.map_append, List.map_cons] at hnd
        exact (List.nodup_append.mp hnd).2.2 _ hmem _ (List.mem_cons_self ..) rfl
      · obtain ⟨h₁, hG₁, hcur₁⟩ := freeSlab_spec hL h hG hO ha ⟨hOG hpO, hmem⟩ hcur
        have hset : (G \ {q | q ∈ prev.map pageOf}) \ {pageOf (v.free.headD 0)} =
            G \ {q | q ∈ (prev ++ [v.free.headD 0]).map pageOf} := by
          rw [Set.sdiff_sdiff]
          refine congrArg (G \ ·) ?_
          ext q
          simp [or_comm]
        rw [hset] at hG₁
        rcases ih (done ++ [v]) (prev ++ [v.free.headD 0]) fuel h₁ hG₁ hcur₁ hr with hw | hw
        · exact Or.inl (by rw [walk, if_pos hfull, ← hw])
        · exact Or.inr (by rwa [List.append_assoc] at hw)

end Loop

/-! ### All or nothing -/

/-- The slab counts all its buffers as free. -/
def Full (m : Mem) (cache slab : ℕ) : Prop := load64 m (slabCount slab) = load64 m (cacheMax cache)

/-- **All or nothing**, for a cache with the given slab records: the page of every slab and that of
the cache are freed, each once; or some slab is not completely free, nothing is freed, and every
later call does what it would have done before. -/
def AllOrNothing {σ : Type} (A : PageSource σ) (cache : ℕ) (slabs : List ℕ) (s s' : Machine σ)
    (freed : List ℕ) : Prop :=
  (freed.map pageOf).Perm (slabs.map pageOf ++ [cache]) ∨
    ((∃ h ∈ slabs, ¬ Full s.mem cache h) ∧ freed = [] ∧
      ∀ live fuel o, exec A cache fuel ⟨s', live⟩ o = exec A cache fuel ⟨s, live⟩ o)

/-- The first slab is not completely free; or all slabs are, and the heads of their free lists lie
one in each of their pages. -/
def Clean (m : Mem) (cache : ℕ) (slabs : List ℕ) : Prop :=
  (∃ h ∈ slabs.head?, ¬ Full m cache h) ∨
    ((∀ h ∈ slabs, Full m cache h) ∧
      (slabs.map fun h => pageOf (load64 m (slabFreeHead h))).Perm (slabs.map pageOf))

section Destroy
variable {σ : Type} {A : PageSource σ} {arena : Set ℕ} {Good : Machine σ → Set ℕ → Prop}
  {s s' : Machine σ} {H O : Set ℕ} {size cache : ℕ} {vs : List View} {live : List ℕ} {flags : SlabFlags}

theorem exec_cursor {m : Mem} (hc : cache ≠ 0) (hd : DiffersOn (cursor cache) s.mem m) (live : List ℕ)
    (fuel : ℕ) (o : SlabOp) :
    exec A cache fuel ⟨{ s with mem := m }, live⟩ o = exec A cache fuel ⟨s, live⟩ o := by
  have hhead : load64 m (cacheHead cache) = load64 s.mem (cacheHead cache) := hd.load64 fun b hb => by
    simp only [cursor, cacheSlabs, cacheHead, Set.mem_Ico] at hb ⊢
    omega
  have hstore : ∀ x, store64 m (cacheSlabs cache) x = store64 s.mem (cacheSlabs cache) x := by
    intro x
    funext b
    by_cases hb : b ∈ Set.Ico (cacheSlabs cache) (cacheSlabs cache + 8)
    · simp only [store64, store, if_pos (show cacheSlabs cache ≤ b ∧ b < cacheSlabs cache + 8 from hb)]
    · rw [store64_of_not_mem hb, store64_of_not_mem hb]
      exact hd b hb
  cases o with
  | alloc flags =>
    cases fuel with
    | zero => rfl
    | succ fuel =>
      simp only [exec, slabCacheAlloc, if_neg hc, hhead, hstore]
  | free flags ptr => simp only [exec, slabCacheFree, if_neg hc, hhead, hstore]
  | grow flags count => simp only [exec, slabCacheGrow, if_neg hc, hhead, hstore]
  | write m' => rfl
  | reap flags => simp only [exec, slabCacheReap, if_neg hc, hhead, hstore]

/-- The end of a call: the record of the cache is cleared and freed if the loop came to the end. -/
def finish (A : PageSource σ) (cache : ℕ) (r : Bool × Machine σ × List ℕ) : Machine σ × List ℕ :=
  if r.1 then (A.free { r.2.1 with mem := fill r.2.1.mem cache 40 0 } cache, r.2.2 ++ [cache]) else r.2

theorem finish_snd (A : PageSource σ) (cache : ℕ) (r : Bool × Machine σ × List ℕ) :
    (finish A cache r).2 = r.2.2 ++ (if r.1 then [cache] else []) := by
  unfold finish
  by_cases hb : r.1 = true
  · rw [if_pos hb, if_pos hb]
  · rw [if_neg hb, if_neg hb, List.append_nil]

theorem slabCacheDestroy_eq {fuel : ℕ} (hc : cache ≠ 0) : slabCacheDestroy A flags cache fuel s =
    (destroyLoop A flags cache fuel
      { s with mem := store64 s.mem (cacheSlabs cache) (load64 s.mem (cacheHead cache)) }).map
      (finish A cache) := by
  rw [slabCacheDestroy, if_neg hc]
  dsimp only
  cases destroyLoop A flags cache fuel
    { s with mem := store64 s.mem (cacheSlabs cache) (load64 s.mem (cacheHead cache)) } with
  | error e => rfl
  | ok r =>
    obtain ⟨b, t, freed⟩ := r
    cases b <;> rfl

theorem records (h : CacheInv s.mem size cache O vs live) :
    (∀ v ∈ vs, Full s.mem cache (header v.page) ↔ v.free.length = cap size) ∧
    (vs.map fun v => header v.page).map pageOf = vs.map View.page ∧
    ((vs.map fun v => header v.page).map fun a => pageOf (load64 s.mem (slabFreeHead a))) =
      (vs.map fun v => v.free.headD 0).map pageOf := by
  refine ⟨fun v hv => ?_, ?_, ?_⟩
  · unfold Full
    rw [h.rep.count v hv, h.rep.max_eq]
  · rw [List.map_map]
    exact List.map_congr_left fun v hv => pageOf_header (h.aligned _ (h.apart.owned v hv))
  · rw [List.map_map, List.map_map]
    refine List.map_congr_left fun v hv => ?_
    show pageOf (load64 s.mem (slabFreeHead (header v.page))) = pageOf (v.free.headD 0)
    rw [(h.rep.free v hv).head_eq]

variable (hL : Lawful A arena Good) (h : Owns Good s H size cache O vs live) (hp : flags.panic = false)
include hL h hp

/-- **A call that frees no page twice** returns. -/
theorem destroy_returns (hnd : ((walk (cap size) vs).2.map pageOf).Nodup) :
    ∃ t', slabCacheDestroy A flags cache (vs.length + 1) s =
      .ok (t', (walk (cap size) vs).2 ++ (if (walk (cap size) vs).1 then [cache] else [])) := by
  obtain ⟨h₁, hd₁, hcur₁⟩ := rewind h.inv
  have hO : insert cache O ⊆ arena := fun q hq => hL.handed h.good (h.handed hq)
  have hG₁ := good_cursor hL h.good (hO (Set.mem_insert _ _)) hd₁
  have hin : ∀ a ∈ (walk (cap size) vs).2, pageOf a ∈ H := by
    intro a ha
    obtain ⟨v, hv, hfull, rfl⟩ := mem_walk ha
    exact h.handed (Set.mem_insert_of_mem _ (head_of_full h.inv hv hfull).2.2)
  obtain ⟨t', ht'⟩ := destroyLoop_frees hL hp vs [] (vs.length + 1) (Nat.lt_succ_self _) h₁ hG₁ hO hcur₁
    hnd hin
  refine ⟨(finish A cache ((walk (cap size) vs).1, t', (walk (cap size) vs).2)).1, ?_⟩
  rw [slabCacheDestroy_eq h.inv.cache_ok.2.1, ht', ← finish_snd A cache (_, t', _)]
  rfl

omit hL in
/-- **A call that frees nothing**: the first slab is not completely free. -/
theorem destroy_stops {v : View} {us : List View} (hvs : vs = v :: us)
    (hfull : v.free.length ≠ cap size) :
    ∃ m, slabCacheDestroy A flags cache 1 s = .ok ({ s with mem := m }, []) ∧
      DiffersOn (cursor cache) s.mem m := by
  subst hvs
  obtain ⟨h₁, hd₁, hcur₁⟩ := rewind h.inv
  rw [slabCacheDestroy_eq h.inv.cache_ok.2.1]
  generalize store64 s.mem (cacheSlabs cache) (load64 s.mem (cacheHead cache)) = m₁ at *
  have hstop : destroyLoop A flags cache 1 { s with mem := m₁ } = .ok (false, { s with mem := m₁ }, []) :=
    destroyLoop_stop hp h₁ (List.mem_cons_self ..) (chain_cons_iff.mp hcur₁).1 hfull
  exact ⟨m₁, by rw [hstop]; rfl, hd₁⟩

/-- **What a call has freed when it returns.** -/
theorem freed_of_destroy {fuel : ℕ} {t' : Machine σ} {freed : List ℕ}
    (hok : slabCacheDestroy A flags cache fuel s = .ok (t', freed)) :
    freed = (walk (cap size) vs).2 ++ (if (walk (cap size) vs).1 then [cache] else []) ∨
      ¬ (freed.map pageOf).Nodup := by
  obtain ⟨h₁, hd₁, hcur₁⟩ := rewind h.inv
  have hO : insert cache O ⊆ arena := fun q hq => hL.handed h.good (h.handed hq)
  have hG₁ := good_cursor hL h.good (hO (Set.mem_insert _ _)) hd₁
  rw [slabCacheDestroy_eq h.inv.cache_ok.2.1] at hok
  generalize store64 s.mem (cacheSlabs cache) (load64 s.mem (cacheHead cache)) = m₁ at *
  obtain ⟨⟨b, t₁, freed₁⟩, hr, hend⟩ := map_eq_ok hok
  have hG₁' : Good { s with mem := m₁ } (H \ {q | q ∈ ([] : List ℕ).map pageOf}) := by simpa using hG₁
  have hwalk := freed_of_destroyLoop hL hp vs [] [] fuel h₁ hG₁' hO
    (fun q hq => h.handed (Set.mem_insert_of_mem _ hq)) hcur₁ hr
  have hfreed : freed = freed₁ ++ (if b then [cache] else []) := by
    have := finish_snd A cache (b, t₁, freed₁)
    rw [hend] at this
    exact this
  refine hwalk.imp (fun hw => by rw [hfreed, ← hw]) fun hnd hnd' => hnd ?_
  rw [hfreed, List.map_append] at hnd'
  exact (List.nodup_append.mp hnd').1

/-- **All or nothing** for a cache with the slabs `vs`. -/
theorem allOrNothing_iff :
    (∃ fuel t' freed, slabCacheDestroy A flags cache fuel s = .ok (t', freed) ∧
      AllOrNothing A cache (vs.map fun v => header v.page) s t' freed) ↔
    Clean s.mem cache (vs.map fun v => header v.page) := by
  obtain ⟨hfull, hpages, hheads⟩ := records h.inv
  have hc := h.inv.cache_ok
  have hcp : pageOf cache = cache := pageOf_of_aligned hc.1
  have hnd : (vs.map View.page ++ [cache]).Nodup := by
    refine List.nodup_append.mpr ⟨h.inv.apart.pages, by simp, fun a ha b hb => ?_⟩
    obtain ⟨v, hv, rfl⟩ := List.mem_map.mp ha
    rw [List.mem_singleton.mp hb]
    exact fun he => h.inv.cache_new (he ▸ h.inv.apart.owned v hv)
  unfold AllOrNothing Clean
  rw [hpages, hheads]
  constructor
  · rintro ⟨fuel, t', freed, hok, hres⟩
    by_cases hfirst : ∃ a ∈ (vs.map fun v => header v.page).head?, ¬ Full s.mem cache a
    · exact Or.inl hfirst
    have hwalk := freed_of_destroy hL h hp hok
    rcases hres with hperm | ⟨⟨a, ha, hnot⟩, rfl, -⟩
    · -- the pages freed are different, so that they are those of the walk
      have hwalk := hwalk.resolve_right fun hn => hn (hperm.nodup_iff.mpr hnd)
      have hall : ∀ v ∈ vs, v.free.length = cap size := by
        refine full_of_walk ?_
        by_contra hstop
        rw [if_neg hstop] at hwalk
        have h1 := hperm.length_eq
        have h2 := walk_length_le (c := cap size) vs
        rw [hwalk] at h1
        simp at h1
        omega
      rw [walk_of_full hall] at hwalk
      rw [hwalk, List.map_append] at hperm
      simp only [if_true, List.map_singleton, hcp] at hperm
      refine Or.inr ⟨fun a ha => ?_, (List.perm_append_right_iff _).mp hperm⟩
      obtain ⟨v, hv, rfl⟩ := List.mem_map.mp ha
      exact (hfull v hv).mpr (hall v hv)
    · -- something is freed when the first slab is completely free
      obtain ⟨v, hv, rfl⟩ := List.mem_map.mp ha
      obtain ⟨u, us, rfl⟩ := List.exists_cons_of_ne_nil (List.ne_nil_of_mem hv)
      have hu : u.free.length = cap size := by
        refine (hfull u (by simp)).mp (not_not.mp fun hn => hfirst ⟨_, rfl, hn⟩)
      rw [walk, if_pos hu] at hwalk
      simp at hwalk
  · rintro (⟨a, ha, hnot⟩ | ⟨hall, hperm⟩)
    · -- the first slab stops the loop
      obtain ⟨u, us, rfl⟩ : ∃ u us, vs = u :: us := by
        refine List.exists_cons_of_ne_nil ?_
        rintro rfl
        cases ha
      obtain rfl : header u.page = a := by simpa using ha
      obtain ⟨m, hok, hd⟩ := destroy_stops h hp rfl fun he => hnot ((hfull u (by simp)).mpr he)
      exact ⟨1, _, [], hok, Or.inr ⟨⟨_, by simp, hnot⟩, rfl, exec_cursor hc.2.1 hd⟩⟩
    · have hall' : ∀ v ∈ vs, v.free.length = cap size := fun v hv =>
        (hfull v hv).mp (hall _ (List.mem_map.mpr ⟨v, hv, rfl⟩))
      have hwalk := walk_of_full hall'
      obtain ⟨t', hok⟩ := destroy_returns hL h hp
        (by rw [hwalk]; exact hperm.nodup_iff.mpr h.inv.apart.pages)
      refine ⟨_, t', _, hok, Or.inl ?_⟩
      rw [hwalk, List.map_append, if_pos rfl, List.map_singleton, hcp]
      exact hperm.append_right _

end Destroy

/-- **Destruction is all or nothing** in exactly the clean states of a run of allocations, releases
of live buffers, growth and writes in live buffers. -/
theorem destroy_iff_clean {σ : Type} {A : PageSource σ} {arena : Set ℕ} {Good : Machine σ → Set ℕ → Prop}
    (hL : Lawful A arena Good) {size cache name : ℕ} {flags flags' : SlabFlags} {t₀ t : Machine σ}
    {H : Set ℕ} {ops : List SlabOp} {s : SlabState σ} (hs : 16 ≤ size) (hG : Good t₀ H) (hc : cache ≠ 0)
    (hnew : slabCacheCreate A flags name size t₀ = .ok (cache, t))
    (hr : Run (fun s o s' => Step A size cache s o s' ∧ o.NoReap) ⟨t, []⟩ ops s)
    (hp : flags'.panic = false) :
    ∃ slabs, Chain (fun a => load64 s.machine.mem (slabNext a))
      (load64 s.machine.mem (cacheHead cache)) slabs ∧
      ((∃ fuel t' freed, slabCacheDestroy A flags' cache fuel s.machine = .ok (t', freed) ∧
        AllOrNothing A cache slabs s.machine t' freed) ↔ Clean s.machine.mem cache slabs) := by
  have hk : Keeps Good size cache False s :=
    hr.invariant (keeps_create hL False hs hG hc hnew) fun s₁ o s₂ h hst =>
      keeps_step hL h hst.1 False.elim fun _ => hst.2
  obtain ⟨H, owned, vs, h, -⟩ := hk
  exact ⟨_, h.inv.rep.chain, allOrNothing_iff hL h hp⟩

/-- A buffer is taken, so that the cache is kept. -/
theorem destroy_iff_clean_small : ∃ t s, slabCacheCreate pmmSource
    ⟨true, false⟩ 0 512 booted = .ok (8192, t) ∧
    Step pmmSource 512 8192 ⟨t, []⟩ (.alloc ⟨true, false⟩) s ∧
    ∃ slabs fuel t' freed,
      slabCacheDestroy pmmSource ⟨false, false⟩ 8192 fuel s.machine = .ok (t', freed) ∧
      AllOrNothing pmmSource 8192 slabs s.machine t' freed := by
  obtain ⟨t, a, hnew, h⟩ := small_cache
  obtain ⟨s, hs, hl, h₁⟩ := alloc_step smallMap_lawful ⟨true, false⟩ h
    (show takeFirst [fresh 512 a] = some (slot 512 a 0, [⟨a, (fresh 512 a).free.tail⟩]) from rfl)
  obtain ⟨slabs, hslabs, hiff⟩ :=
    destroy_iff_clean smallMap_lawful (by norm_num) handed_booted (by norm_num)
    hnew (.cons ⟨hs, trivial⟩ .nil) (show (⟨false, false⟩ : SlabFlags).panic = false from rfl)
  refine ⟨t, s, hnew, hs, slabs, hiff.mpr (Or.inl ?_)⟩
  rw [chain_unique hslabs h₁.inv.rep.chain]
  refine ⟨header a, rfl, fun hf => ?_⟩
  have := (records h₁.inv).1 ⟨a, (fresh 512 a).free.tail⟩ (by simp)
  exact absurd (this.mp hf) (by simp [fresh, cap])

/-- Of two slabs the first is completely free and the second is not: one page is freed and the cache
stays. -/
theorem destroy_frees_one_page : ∃ t ops s slabs t' a,
    slabCacheCreate pmmSource ⟨true, false⟩ 0 512 booted = .ok (8192, t) ∧
    Run (fun s o s' => Step pmmSource 512 8192 s o s' ∧ o.NoReap) ⟨t, []⟩ ops s ∧
    Chain (fun a => load64 s.machine.mem (slabNext a)) (load64 s.machine.mem (cacheHead 8192)) slabs ∧
    slabCacheDestroy pmmSource ⟨false, false⟩ 8192 3 s.machine = .ok (t', [a]) ∧
    ¬ AllOrNothing pmmSource 8192 slabs s.machine t' [a] := by
  obtain ⟨t, ops, s, a, b, l, H, owned, hnew, hrun, h, hlen, -⟩ := small_mixed
  have hwalk : walk (cap 512) [⟨a, l⟩, ⟨b, (fresh 512 b).free.tail⟩] = (false, [l.headD 0]) := by
    have hb : (fresh 512 b).free.tail.length ≠ cap 512 := by simp [fresh, cap]
    simp only [walk, if_pos hlen, if_neg hb]
  obtain ⟨t', hok⟩ := destroy_returns smallMap_lawful h
    (show (⟨false, false⟩ : SlabFlags).panic = false from rfl) (by simp [hwalk])
  rw [hwalk] at hok
  refine ⟨t, ops, s, _, t', l.headD 0, hnew, hrun, h.inv.rep.chain, hok, ?_⟩
  rintro (hperm | ⟨-, hnil, -⟩)
  · exact absurd hperm.length_eq (by simp)
  · cases hnil

end FusionCore.Mm.SlabDestroy
