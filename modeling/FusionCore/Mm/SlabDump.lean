import FusionCore.Mm.SlabCursor

/-! # `slab_cache_dump`

Every call on a cache but this one moves the cursor to the head first. `slab_cache_dump` starts where the
cursor is and leaves it at NULL, so that it prints the whole cache exactly if the cursor is at the head
(`complete_iff`), and prints the same twice only if it prints nothing (`repeats_iff`). A dump that is
complete is followed by one that is not: the law of the dump (`DumpLaw`) holds in no state of a cache
with a slab (`dumpLaw_never`). -/

namespace FusionCore.Mm.SlabDump

open FusionCore.Lib.ByteMem FusionCore.Lib.NullChain FusionCore.Lib.Runs
open FusionCore.Mm.Defs FusionCore.Mm.Phys FusionCore.Mm.Pages FusionCore.Mm.PhysPages
open FusionCore.Mm.Slab FusionCore.Mm.SlabView FusionCore.Mm.SlabRep FusionCore.Mm.SlabOps
open FusionCore.Mm.SlabLife FusionCore.Mm.SlabReap FusionCore.Mm.SlabSpec FusionCore.Mm.SlabCursor
open FusionCore.Mm.PhysSpec (smallMap)

variable {σ : Type} {A : PageSource σ} {s s' : Machine σ} {m m' : Mem} {flags : SlabFlags}
  {size cache fuel n : ℕ} {O : Set ℕ} {vs : List View} {live : List ℕ} {out : List DumpLine}

/-! ### What a dump should print -/

/-- The lines for the free buffers of a slab, counted from `n` on. -/
def bufctlLines (n : ℕ) : List ℕ → List DumpLine
  | [] => []
  | b :: l => .bufctl n b :: bufctlLines (n + 1) l

/-- The lines for slabs with their free lists, counted from `n` on. -/
def slabLines (n : ℕ) : List (ℕ × List ℕ) → List DumpLine
  | [] => []
  | d :: ds => .slab n d.1 :: bufctlLines 0 d.2 ++ slabLines (n + 1) ds

/-- The slabs from `slabs_head` on, each with its free list; no free buffer is in them twice. -/
structure Listing (m : Mem) (cache : ℕ) (slabs : List (ℕ × List ℕ)) : Prop where
  list : Slabs m (load64 m (cacheHead cache)) (slabs.map Prod.fst)
  free : ∀ d ∈ slabs, Chain (fun b => load64 m (bufctlNext b)) (load64 m (slabFreeHead d.1)) d.2
  nodup : (slabs.flatMap Prod.snd).Nodup

/-- **The dump is complete**: it returns, and has printed every slab from `slabs_head` on, in order,
and for each every free buffer once. -/
def Complete (flags : SlabFlags) (cache : ℕ) (s : Machine σ) : Prop :=
  ∃ slabs fuel s', Listing s.mem cache slabs ∧ slabCacheDump flags cache fuel s =
    .ok (s', .cache (load64 s.mem (cacheName cache)) :: slabLines 0 slabs)

/-- **The dump repeats**: two consecutive dumps return and print the same. -/
def Repeats (flags : SlabFlags) (cache : ℕ) (s : Machine σ) : Prop :=
  ∃ fuel s₁ s₂ out, slabCacheDump flags cache fuel s = .ok (s₁, out) ∧
    slabCacheDump flags cache fuel s₁ = .ok (s₂, out)

/-- A call on a cache, with `slab_cache_dump`. -/
inductive CacheOp
  | slab (o : SlabOp)
  | dump (flags : SlabFlags)

/-- What a call returns, frees or prints. -/
inductive CallResult
  | void
  | buffer (ptr : ℕ)
  | freed (pages : List ℕ)
  | printed (out : List DumpLine)

/-- The effect of a call and its result. -/
def call (A : PageSource σ) (cache fuel : ℕ) (s : SlabState σ) : CacheOp →
    Except Halt (SlabState σ × CallResult)
  | .slab (.alloc flags) => (slabCacheAlloc A flags cache fuel s.machine).map fun r =>
      (⟨r.2, if r.1 = 0 then s.live else r.1 :: s.live⟩, .buffer r.1)
  | .slab (.reap flags) =>
    (slabCacheReap A flags cache fuel s.machine).map fun r => (⟨r.1, s.live⟩, .freed r.2)
  | .slab o => (exec A cache fuel s o).map fun t => (t, .void)
  | .dump flags => (slabCacheDump flags cache fuel s.machine).map fun r => (⟨r.1, s.live⟩, .printed r.2)

/-- One call that returns, with its result. -/
def Returns (A : PageSource σ) (cache : ℕ) (s : SlabState σ) (o : CacheOp × CallResult)
    (s' : SlabState σ) :
    Prop := ∃ fuel, call A cache fuel s o.1 = .ok (s', o.2)

/-- **The dump is harmless**: later calls have the results they would have had without it. -/
def Harmless (A : PageSource σ) (flags : SlabFlags) (cache : ℕ) (s : SlabState σ) : Prop :=
  ∀ fuel t out, slabCacheDump flags cache fuel s.machine = .ok (t, out) →
    ∀ os, (∃ s', Run (Returns A cache) ⟨t, s.live⟩ os s') ↔ ∃ s', Run (Returns A cache) s os s'

/-- **The law of the dump.** -/
structure DumpLaw (A : PageSource σ) (flags : SlabFlags) (cache : ℕ) (s : SlabState σ) : Prop where
  complete : Complete flags cache s.machine
  repeats : Repeats flags cache s.machine
  harmless : Harmless A flags cache s

/-! ### Where the cursor is -/

/-- The memory after the move of the cursor. -/
def moveOn (cache : ℕ) (m : Mem) : Mem :=
  store64 m (cacheSlabs cache) (load64 m (slabNext (load64 m (cacheSlabs cache))))

/-- The memory before the inner loop. -/
def rewindFree (m : Mem) (slab : ℕ) : Mem := store64 m (slabFree slab) (load64 m (slabFreeHead slab))

/-- **What an iteration of the loop can do.** -/
theorem dumpLoop_cases (h : dumpLoop cache (fuel + 1) n m = .ok (m', out)) :
    (load64 m (cacheSlabs cache) = 0 ∧ m' = m ∧ out = []) ∨
      ∃ m₁ out₁ out₂, load64 m (cacheSlabs cache) ≠ 0 ∧
        dumpBufctls cache fuel 0 (rewindFree m (load64 m (cacheSlabs cache))) = .ok (m₁, out₁) ∧
        dumpLoop cache fuel (n + 1) (moveOn cache m₁) = .ok (m', out₂) ∧
        out = .slab n (load64 m (cacheSlabs cache)) :: out₁ ++ out₂ := by
  rw [dumpLoop] at h
  split_ifs at h with h0
  · cases h
    exact Or.inl ⟨h0, rfl, rfl⟩
  · split at h
    · cases h
    · rename_i m₁ out₁ h₁
      split at h
      · cases h
      · rename_i m₂ out₂ h₂
        cases h
        exact Or.inr ⟨m₁, out₁, out₂, h0, h₁, h₂, rfl⟩

theorem dumpLoop_end (h : dumpLoop cache fuel n m = .ok (m', out)) :
    load64 m' (cacheSlabs cache) = 0 := by
  induction fuel generalizing n m m' out with
  | zero => cases h
  | succ fuel ih =>
    rcases dumpLoop_cases h with ⟨h0, rfl, -⟩ | ⟨m₁, out₁, out₂, -, -, h₂, -⟩
    · exact h0
    · exact ih h₂

theorem dumpLoop_first (h : dumpLoop cache fuel n m = .ok (m', out))
    (h0 : load64 m (cacheSlabs cache) ≠ 0) :
    ∃ out', out = .slab n (load64 m (cacheSlabs cache)) :: out' := by
  cases fuel with
  | zero => cases h
  | succ fuel =>
    rcases dumpLoop_cases h with ⟨h0', -⟩ | ⟨m₁, out₁, out₂, -, -, -, rfl⟩
    · exact absurd h0' h0
    · exact ⟨out₁ ++ out₂, rfl⟩

theorem dump_at_null (h0 : load64 s.mem (cacheSlabs cache) = 0) :
    slabCacheDump flags cache fuel s = if flags.panic then
      .error (.panic "slab_cache_dump(): Slabs don't exist\n") else .ok (s, []) := if_pos h0

/-- **A dump at a slab** prints that slab first and leaves the cursor at NULL. -/
theorem dump_at_slab (h : slabCacheDump flags cache fuel s = .ok (s', out))
    (h0 : load64 s.mem (cacheSlabs cache) ≠ 0) :
    load64 s'.mem (cacheSlabs cache) = 0 ∧ ∃ out', out = .cache (load64 s.mem (cacheName cache)) ::
      .slab 0 (load64 s.mem (cacheSlabs cache)) :: out' := by
  rw [slabCacheDump, if_neg h0] at h
  split at h
  · cases h
  · rename_i m' out₁ hr
    cases h
    obtain ⟨out', rfl⟩ := dumpLoop_first hr h0
    exact ⟨dumpLoop_end hr, out', rfl⟩

/-- **Two dumps print the same** only if they print nothing. -/
theorem repeats_iff : Repeats flags cache s ↔ load64 s.mem (cacheSlabs cache) = 0 ∧
    flags.panic = false := by
  constructor
  · rintro ⟨fuel, s₁, s₂, out, h₁, h₂⟩
    by_cases h0 : load64 s.mem (cacheSlabs cache) = 0
    · refine ⟨h0, eq_false_of_ne_true fun hp => ?_⟩
      rw [dump_at_null h0, if_pos hp] at h₁
      cases h₁
    · obtain ⟨hnull, out', rfl⟩ := dump_at_slab h₁ h0
      rw [dump_at_null hnull] at h₂
      split_ifs at h₂
      cases h₂
  · rintro ⟨h0, hp⟩
    have h₁ : ∀ fuel, slabCacheDump flags cache fuel s = .ok (s, []) := fun fuel => by
      rw [dump_at_null h0, if_neg (by simp [hp])]
    exact ⟨0, s, s, [], h₁ 0, h₁ 0⟩

theorem cursor_of_complete (h : Complete flags cache s) (hhead : load64 s.mem (cacheHead cache) ≠ 0) :
    load64 s.mem (cacheSlabs cache) = load64 s.mem (cacheHead cache) := by
  obtain ⟨slabs, fuel, s', hl, hr⟩ := h
  have h0 : load64 s.mem (cacheSlabs cache) ≠ 0 := fun h0 => by
    rw [dump_at_null h0] at hr
    split_ifs at hr
    cases hr
  obtain ⟨-, out', hout⟩ := dump_at_slab hr h0
  -- the first slab of the list is the first one printed
  cases slabs with
  | nil => exact absurd (chain_nil_iff.mp hl.list) hhead
  | cons d ds =>
    have hd := (chain_cons_iff.mp hl.list).1
    rw [slabLines, List.cons_append, List.cons.injEq, List.cons.injEq] at hout
    rw [hd]
    exact (DumpLine.slab.inj hout.2.1).2.symm

/-! ### Dumps of a sound cache -/

/-- The bytes a dump writes: the cursor of the cache and those of its slabs. -/
def dumpBytes (cache : ℕ) (O : Set ℕ) : Set ℕ :=
  {a | (cache + 32 ≤ a ∧ a < cache + 40) ∨ ∃ p ∈ O, p + 4088 ≤ a ∧ a < p + 4096}

theorem inv_of_dump (h : CacheInv m size cache O vs live) (hd : DiffersOn (dumpBytes cache O) m m') :
    CacheInv m' size cache O vs live := by
  refine { h with rep := h.rep.congr fun a ha => hd a ?_ }
  have hc := h.cache_ok
  rintro (hb | ⟨p, hp, hb⟩)
  · rcases ha with ha | ⟨u, hu, ha⟩ | ⟨b, hbn, ha⟩
    · omega
    · have h1 := h.aligned _ (h.apart.owned u hu)
      have h2 : u.page ≠ cache := fun he => h.cache_new (he ▸ h.apart.owned u hu)
      omega
    · have hs := h.size_ge
      obtain ⟨-, h1, h2⟩ := h.slot_place (h.node_slot hbn)
      omega
  · have h1 := h.aligned p hp
    have h2 : p ≠ cache := fun he => h.cache_new (he ▸ hp)
    rcases ha with ha | ⟨u, hu, ha⟩ | ⟨b, hbn, ha⟩
    · omega
    · have h3 := h.aligned _ (h.apart.owned u hu)
      omega
    · have hs := h.size_ge
      obtain ⟨-, h3, -⟩ := h.slot_place (h.node_slot hbn)
      omega

/-- **The inner loop** prints the buffers from the cursor of the slab on. -/
theorem dumpBufctls_spec {slab : ℕ} (l : List ℕ) (n : ℕ) (hcur : load64 m (cacheSlabs cache) = slab)
    (hoff : slab + 32 ≤ cache + 32 ∨ cache + 40 ≤ slab + 24)
    (hc : Chain (fun b => load64 m (bufctlNext b)) (load64 m (slabFree slab)) l)
    (hl : ∀ b ∈ l, b + 8 ≤ slab + 24 ∨ slab + 32 ≤ b) :
    ∃ m', DiffersOn (Set.Ico (slab + 24) (slab + 32)) m m' ∧
      ∀ fuel, dumpBufctls cache fuel n m = .ok (m', bufctlLines n l) ∨
        fuel ≤ l.length ∧ dumpBufctls cache fuel n m = .error .outOfFuel := by
  induction l generalizing n m with
  | nil =>
    refine ⟨m, DiffersOn.refl _ _, fun fuel => ?_⟩
    cases fuel with
    | zero => exact Or.inr ⟨le_rfl, rfl⟩
    | succ fuel =>
      rw [dumpBufctls, hcur]
      exact Or.inl (if_pos (chain_nil_iff.mp hc))
  | cons b l ih =>
    obtain ⟨hb, h0, hc⟩ := chain_cons_iff.mp hc
    rw [hb] at h0 hc
    set m₁ := store64 m (slabFree slab) (load64 m (bufctlNext b)) with hm₁
    have hd₁ : DiffersOn (Set.Ico (slab + 24) (slab + 32)) m m₁ :=
      differsOn_store64 (DiffersOn.refl _ _) fun _ h => h
    have hcur₁ : load64 m₁ (cacheSlabs cache) = slab := by
      rw [hm₁, load64_store64_of_disjoint (by unfold slabFree cacheSlabs; omega), hcur]
    have hc₁ : Chain (fun b => load64 m₁ (bufctlNext b)) (load64 m₁ (slabFree slab)) l := by
      rw [show load64 m₁ (slabFree slab) = load64 m (bufctlNext b) from load64_store64 (load64_lt _ _)]
      refine hc.congr fun x hx => hd₁.load64 fun a ha => ?_
      have h1 := hl x (List.mem_cons_of_mem _ hx)
      rw [Set.mem_Ico] at ha
      unfold bufctlNext
      omega
    obtain ⟨m', hd', hr⟩ := ih (n + 1) hcur₁ hc₁ fun x hx => hl x (List.mem_cons_of_mem _ hx)
    refine ⟨m', hd₁.trans hd', fun fuel => ?_⟩
    cases fuel with
    | zero => exact Or.inr ⟨Nat.zero_le _, rfl⟩
    | succ fuel =>
      rw [dumpBufctls, hcur, if_neg (by rwa [hb]), hb, ← hm₁]
      rcases hr fuel with hr | ⟨hle, hr⟩
      · exact Or.inl (by rw [hr]; rfl)
      · exact Or.inr ⟨Nat.succ_le_succ hle, by rw [hr]⟩

/-- The slabs with their free lists. -/
def slabsOf (vs : List View) : List (ℕ × List ℕ) := vs.map fun v => (header v.page, v.free)

theorem listing_of_inv (h : CacheInv m size cache O vs live) : Listing m cache (slabsOf vs) := by
  refine ⟨?_, fun d hd => ?_, ?_⟩
  · rw [slabsOf, List.map_map]
    exact h.rep.chain
  · obtain ⟨v, hv, rfl⟩ := List.mem_map.mp hd
    exact h.rep.free v hv
  · rw [slabsOf, List.flatMap_map]
    exact (List.nodup_append.mp h.apart.nodup).1

/-- The cursor of a slab. -/
def slabCursor (v : View) : Set ℕ := Set.Ico (header v.page + 24) (header v.page + 32)

section OneSlab
variable {v : View} {rest : List View} {m₁ : Mem} (h : CacheInv m size cache O vs live)
include h

theorem slabCursor_subset (hv : v ∈ vs) : slabCursor v ⊆ dumpBytes cache O := fun a ha => by
  rw [slabCursor, Set.mem_Ico, header] at ha
  exact Or.inr ⟨_, h.apart.owned v hv, by omega, by omega⟩

theorem cursor_same (hv : v ∈ vs) (hd : DiffersOn (slabCursor v) m m₁) :
    load64 m₁ (cacheSlabs cache) = load64 m (cacheSlabs cache) := by
  have h1 := h.aligned _ (h.apart.owned v hv)
  have h2 : v.page ≠ cache := fun he => h.cache_new (he ▸ h.apart.owned v hv)
  have h3 := h.cache_ok
  refine hd.load64 fun b hb => ?_
  rw [slabCursor, Set.mem_Ico, header] at hb
  unfold cacheSlabs
  omega

theorem link_same {u : View} (hv : v ∈ vs) (hu : u ∈ vs) (hd : DiffersOn (slabCursor v) m m₁) :
    load64 m₁ (slabNext (header u.page)) = load64 m (slabNext (header u.page)) := by
  have h1 := h.aligned _ (h.apart.owned v hv)
  have h2 := h.aligned _ (h.apart.owned u hu)
  refine hd.load64 fun b hb => ?_
  rw [slabCursor, Set.mem_Ico, header] at hb
  unfold slabNext header
  omega

/-- **Before the inner loop** the cursor of the slab is at the head of its free list. -/
theorem rewindFree_spec (hv : v ∈ vs) : DiffersOn (slabCursor v) m (rewindFree m (header v.page)) ∧
    Chain (fun b => load64 (rewindFree m (header v.page)) (bufctlNext b))
      (load64 (rewindFree m (header v.page)) (slabFree (header v.page))) v.free := by
  have hd : DiffersOn (slabCursor v) m (rewindFree m (header v.page)) :=
    differsOn_store64 (DiffersOn.refl _ _) fun _ h => h
  have hI := inv_of_dump h (hd.mono (slabCursor_subset h hv))
  have hw : load64 (rewindFree m (header v.page)) (slabFree (header v.page)) =
      load64 (rewindFree m (header v.page)) (slabFreeHead (header v.page)) := by
    rw [rewindFree, load64_store64 (load64_lt _ _),
      load64_store64_of_disjoint (by unfold slabFree slabFreeHead; omega)]
  rw [hw]
  exact ⟨hd, hI.rep.free v hv⟩

/-- **After the inner loop** the cursor goes on. -/
theorem moveOn_spec (hsub : ∀ w ∈ v :: rest, w ∈ vs) (hd : DiffersOn (slabCursor v) m m₁)
    (hcur : Slabs m (load64 m (cacheSlabs cache)) ((v :: rest).map fun v => header v.page)) :
    DiffersOn (dumpBytes cache O) m (moveOn cache m₁) ∧
      Slabs (moveOn cache m₁) (load64 (moveOn cache m₁) (cacheSlabs cache))
        (rest.map fun v => header v.page) := by
  have hv := hsub v (by simp)
  obtain ⟨hhead, -, hrest⟩ := chain_cons_iff.mp hcur
  rw [hhead] at hrest
  have hmove : moveOn cache m₁ = store64 m₁ (cacheSlabs cache) (load64 m (slabNext (header v.page))) := by
    rw [moveOn, cursor_same h hv hd, hhead, link_same h hv hv hd]
  have hd₂ : DiffersOn (cursor cache) m₁ (moveOn cache m₁) :=
    differsOn_store64 (DiffersOn.refl _ _) fun _ h => h
  refine ⟨(hd.mono (slabCursor_subset h hv)).trans (hd₂.mono fun _ ha => Or.inl ha), ?_⟩
  rw [hmove, load64_store64 (load64_lt _ _), ← hmove]
  refine hrest.congr fun x hx => ?_
  obtain ⟨u, hu, rfl⟩ := List.mem_map.mp hx
  have huv := hsub u (List.mem_cons_of_mem _ hu)
  rw [← link_same h hv huv hd]
  -- the cursor of the cache is no link
  refine hd₂.load64 fun b hb => ?_
  have hu4 := h.aligned _ (h.apart.owned u huv)
  have huc : u.page ≠ cache := fun he => h.cache_new (he ▸ h.apart.owned u huv)
  have hcok := h.cache_ok
  simp only [cursor, cacheSlabs, Set.mem_Ico] at hb
  unfold slabNext header
  omega

/-- **One slab is printed** and the cursor goes on. -/
theorem dumpSlab_spec (hsub : ∀ w ∈ v :: rest, w ∈ vs)
    (hcur : Slabs m (load64 m (cacheSlabs cache)) ((v :: rest).map fun v => header v.page)) :
    ∃ m₁, DiffersOn (dumpBytes cache O) m (moveOn cache m₁) ∧
      Slabs (moveOn cache m₁) (load64 (moveOn cache m₁) (cacheSlabs cache))
        (rest.map fun v => header v.page) ∧
      ∀ fuel, dumpBufctls cache fuel 0 (rewindFree m (header v.page)) = .ok (m₁, bufctlLines 0 v.free) ∨
        fuel ≤ v.free.length ∧
          dumpBufctls cache fuel 0 (rewindFree m (header v.page)) = .error .outOfFuel := by
  have hv := hsub v (by simp)
  have hv4 := h.aligned _ (h.apart.owned v hv)
  have hvc : v.page ≠ cache := fun he => h.cache_new (he ▸ h.apart.owned v hv)
  have hcok := h.cache_ok
  obtain ⟨hd₀, hc₀⟩ := rewindFree_spec h hv
  have hcur₀ : load64 (rewindFree m (header v.page)) (cacheSlabs cache) = header v.page :=
    (cursor_same h hv hd₀).trans (chain_cons_iff.mp hcur).1
  obtain ⟨m₁, hd₁, hr⟩ := dumpBufctls_spec v.free 0 hcur₀ (by unfold header; omega) hc₀ fun b hb => by
    obtain ⟨-, h1, -⟩ := h.slot_place (h.node_slot (mem_nodes.mpr ⟨v, hv, hb⟩))
    have h2 := h.size_ge
    unfold header
    omega
  obtain ⟨hd, hnext⟩ := moveOn_spec h hsub (hd₀.trans hd₁) hcur
  exact ⟨m₁, hd, hnext, hr⟩

end OneSlab

/-- **The loop** prints the slabs from the cursor on. -/
theorem dumpLoop_spec (rest : List View) (n : ℕ) (h : CacheInv m size cache O vs live)
    (hsub : ∀ w ∈ rest, w ∈ vs)
    (hcur : Slabs m (load64 m (cacheSlabs cache)) (rest.map fun v => header v.page)) :
    ∃ m', DiffersOn (dumpBytes cache O) m m' ∧
      ∀ fuel, dumpLoop cache fuel n m = .ok (m', slabLines n (slabsOf rest)) ∨
        fuel ≤ rest.length + cap size ∧ dumpLoop cache fuel n m = .error .outOfFuel := by
  induction rest generalizing n m with
  | nil =>
    refine ⟨m, DiffersOn.refl _ _, fun fuel => ?_⟩
    cases fuel with
    | zero => exact Or.inr ⟨Nat.zero_le _, rfl⟩
    | succ fuel =>
      rw [dumpLoop]
      exact Or.inl (if_pos (chain_nil_iff.mp hcur))
  | cons v rest ih =>
    have hcount := h.apart.count v (hsub v (by simp))
    obtain ⟨hhead, h0, -⟩ := chain_cons_iff.mp hcur
    obtain ⟨m₁, hd₁, hcur₁, hr₁⟩ := dumpSlab_spec h hsub hcur
    obtain ⟨m', hd', hr'⟩ :=
      ih (n + 1) (inv_of_dump h hd₁) (fun w hw => hsub w (List.mem_cons_of_mem _ hw)) hcur₁
    refine ⟨m', hd₁.trans hd', fun fuel => ?_⟩
    cases fuel with
    | zero => exact Or.inr ⟨Nat.zero_le _, rfl⟩
    | succ fuel =>
      rw [dumpLoop, if_neg h0, hhead, List.length_cons]
      rw [rewindFree] at hr₁
      rw [moveOn] at hr'
      rcases hr₁ fuel with hr₁ | ⟨hle, hr₁⟩
      · rw [hr₁]
        dsimp only
        rcases hr' fuel with hr' | ⟨hle, hr'⟩
        · exact Or.inl (by rw [hr']; rfl)
        · exact Or.inr ⟨by omega, by rw [hr']⟩
      · exact Or.inr ⟨by omega, by rw [hr₁]⟩

/-- **`slab_cache_dump` at a slab** of a sound cache prints the slabs from that one on. -/
theorem dump_spec (h : CacheInv s.mem size cache O vs live) (hat : AtView s.mem cache vs)
    (h0 : load64 s.mem (cacheSlabs cache) ≠ 0) :
    ∃ rest m', rest <:+ vs ∧
    (load64 s.mem (cacheSlabs cache) = load64 s.mem (cacheHead cache) → rest = vs) ∧
      DiffersOn (dumpBytes cache O) s.mem m' ∧
      ∀ flags fuel, slabCacheDump flags cache fuel s = .ok ({ s with mem := m' },
          .cache (load64 s.mem (cacheName cache)) :: slabLines 0 (slabsOf rest)) ∨
        fuel ≤ rest.length + cap size ∧ slabCacheDump flags cache fuel s = .error .outOfFuel := by
  obtain ⟨v, hv, hcur⟩ := hat.resolve_left h0
  obtain ⟨pre, post, rfl⟩ := List.append_of_mem hv
  have hchain := h.rep.chain
  rw [List.map_append, List.map_cons] at hchain
  -- the list from the cursor on
  have hrest : Slabs s.mem (load64 s.mem (cacheSlabs cache))
      ((v :: post).map fun v => header v.page) := by
    rw [hcur, List.map_cons]
    exact hchain.drop
  obtain ⟨m', hd, hr⟩ := dumpLoop_spec (v :: post) 0 h (fun w hw => List.mem_append_right _ hw) hrest
  refine ⟨v :: post, m', List.suffix_append _ _, fun he => ?_, hd, fun flags fuel => ?_⟩
  · rw [he] at hrest
    have hlen := congrArg List.length (chain_unique hrest h.rep.chain)
    simp only [List.length_map, List.length_append] at hlen
    obtain rfl : pre = [] := List.length_eq_zero_iff.mp (by omega)
    rfl
  · rw [slabCacheDump, if_neg h0]
    rcases hr fuel with hr | ⟨hle, hr⟩
    · exact Or.inl (by rw [hr])
    · exact Or.inr ⟨hle, by rw [hr]⟩

theorem at_head (h : CacheInv m size cache O vs live)
    (hcur : load64 m (cacheSlabs cache) = load64 m (cacheHead cache)) : AtView m cache vs := by
  refine (atSlab_iff h).mp ⟨_, h.rep.chain, ?_⟩
  rw [hcur]
  exact h.rep.chain.start_mem

/-- **Completeness**: in a sound cache with a slab the dump is complete exactly if the cursor is at the
head. -/
theorem complete_iff (h : CacheInv s.mem size cache O vs live)
    (hhead : load64 s.mem (cacheHead cache) ≠ 0) :
    Complete flags cache s ↔ load64 s.mem (cacheSlabs cache) = load64 s.mem (cacheHead cache) := by
  refine ⟨fun hc => cursor_of_complete hc hhead, fun hcur => ?_⟩
  obtain ⟨rest, m', -, hrest, -, hr⟩ := dump_spec h (at_head h hcur) (by rwa [hcur])
  obtain rfl := hrest hcur
  refine ⟨slabsOf rest, rest.length + cap size + 1, { s with mem := m' }, listing_of_inv h, ?_⟩
  exact (hr flags _).resolve_right fun hn => absurd hn.1 (by omega)

/-- **A complete dump and what it leaves**: the cache has its slabs, and the cursor is at NULL. -/
theorem dump_twice (flags : SlabFlags) (h : CacheInv s.mem size cache O vs live)
    (hcur : load64 s.mem (cacheSlabs cache) = load64 s.mem (cacheHead cache))
    (hhead : load64 s.mem (cacheHead cache) ≠ 0) :
    Complete flags cache s ∧
      ∃ s' out, slabCacheDump flags cache (vs.length + cap size + 1) s = .ok (s', out) ∧
      out ≠ [] ∧ load64 s'.mem (cacheHead cache) ≠ 0 ∧ load64 s'.mem (cacheSlabs cache) = 0 := by
  have h0 : load64 s.mem (cacheSlabs cache) ≠ 0 := by
    rw [hcur]
    exact hhead
  obtain ⟨rest, m', -, hrest, hd, hr⟩ := dump_spec h (at_head h hcur) h0
  obtain rfl := hrest hcur
  have hok := (hr flags (rest.length + cap size + 1)).resolve_right fun hn => absurd hn.1 (by omega)
  refine ⟨(complete_iff h hhead).mpr hcur, _, _, hok, List.cons_ne_nil _ _, ?_, (dump_at_slab hok h0).1⟩
  -- the list is the same, so that it begins with the same slab
  have h1 := (inv_of_dump h hd).rep.chain.head_eq
  rw [h.rep.chain.head_eq, ← h1] at hhead
  exact hhead

theorem call_dump {s : SlabState σ} : call A cache fuel s (.dump flags) =
    (slabCacheDump flags cache fuel s.machine).map fun r => (⟨r.1, s.live⟩, .printed r.2) := rfl

theorem returns_dump_iff {s s' : SlabState σ} {r : CallResult} :
    Returns A cache s (.dump flags, r) s' ↔
      ∃ fuel t out, slabCacheDump flags cache fuel s.machine = .ok (t, out) ∧
      s' = ⟨t, s.live⟩ ∧ r = .printed out := by
  constructor
  · rintro ⟨fuel, hok⟩
    rw [call_dump] at hok
    obtain ⟨⟨t, out⟩, hr, he⟩ := map_eq_ok hok
    obtain ⟨rfl, rfl⟩ := Prod.mk.inj he
    exact ⟨fuel, t, out, hr, rfl, rfl⟩
  · rintro ⟨fuel, t, out, hr, rfl, rfl⟩
    exact ⟨fuel, by rw [call_dump, hr, Except.map]⟩

theorem not_harmless {s : SlabState σ} (hok : slabCacheDump flags cache fuel s.machine = .ok (s', out))
    (h0 : load64 s.machine.mem (cacheSlabs cache) ≠ 0) : ¬ Harmless A flags cache s := by
  intro hh
  obtain ⟨hnull, out', rfl⟩ := dump_at_slab hok h0
  obtain ⟨s₂, hrun⟩ := (hh _ _ _ hok _).mpr
    ⟨_, run_singleton_iff.mpr (returns_dump_iff.mpr ⟨_, _, _, hok, rfl, rfl⟩)⟩
  obtain ⟨fuel', t, out, hr, -, hout⟩ := returns_dump_iff.mp (run_singleton_iff.mp hrun)
  rw [dump_at_null hnull] at hr
  split_ifs at hr
  cases hr
  cases hout

/-- **Harmlessness**: in a sound cache a dump does no harm exactly if it prints nothing. -/
theorem harmless_iff {s : SlabState σ} (h : CacheInv s.machine.mem size cache O vs live)
    (hat : AtView s.machine.mem cache vs) :
    Harmless A flags cache s ↔ load64 s.machine.mem (cacheSlabs cache) = 0 := by
  constructor
  · intro hh
    by_contra h0
    obtain ⟨rest, m', -, -, -, hr⟩ := dump_spec h hat h0
    have hok := (hr flags (rest.length + cap size + 1)).resolve_right fun hn => absurd hn.1 (by omega)
    exact not_harmless hok h0 hh
  · intro h0 fuel t out hok os
    rw [dump_at_null h0] at hok
    split_ifs at hok
    cases hok
    exact Iff.rfl

/-! ### Runs with dumps -/

/-- One call that returns, also of `slab_cache_dump`. -/
def CacheStep (A : PageSource σ) (size cache : ℕ) (s : SlabState σ) (o : CacheOp)
    (s' : SlabState σ) : Prop :=
  (∀ o', o = .slab o' → Valid size s o') ∧ ∃ r, Returns A cache s (o, r) s'

/-- With `home`, a buffer is freed only when the slab found for it is that of its page; otherwise
nothing is reaped. -/
def Tame (home : Prop) (cache : ℕ) (s : SlabState σ) : CacheOp → Prop
  | .slab o => (home → ∀ flags ptr, o = .free flags ptr → FreesHome s.machine.mem cache ptr) ∧
      (¬ home → o.NoReap)
  | .dump _ => True

theorem step_of_returns {s s' : SlabState σ} {o : SlabOp} {r : CallResult} (hv : Valid size s o)
    (h : Returns A cache s (.slab o, r) s') : Step A size cache s o s' := by
  obtain ⟨fuel, hok⟩ := h
  refine ⟨hv, fuel, ?_⟩
  cases o with
  | alloc flags =>
    obtain ⟨⟨a, t⟩, hr, he⟩ := map_eq_ok hok
    obtain ⟨rfl, -⟩ := Prod.mk.inj he
    simp only [exec, hr, Except.map]
  | reap flags =>
    obtain ⟨⟨t, freed⟩, hr, he⟩ := map_eq_ok hok
    obtain ⟨rfl, -⟩ := Prod.mk.inj he
    simp only [exec, hr, Except.map]
  | free flags ptr =>
    obtain ⟨t, hr, he⟩ := map_eq_ok hok
    obtain ⟨rfl, -⟩ := Prod.mk.inj he
    exact hr
  | grow flags count =>
    obtain ⟨t, hr, he⟩ := map_eq_ok hok
    obtain ⟨rfl, -⟩ := Prod.mk.inj he
    exact hr
  | write m =>
    cases hok
    rfl

section Runs
variable {arena : Set ℕ} {Good : Machine σ → Set ℕ → Prop} {home : Prop} {s s' : SlabState σ}
  (hL : Lawful A arena Good)
include hL

theorem keeps_dump (h : Keeps Good size cache home s) (hat : AtSlab s.machine.mem cache) {r : CallResult}
    (hr : Returns A cache s (.dump flags, r) s') :
    Keeps Good size cache home s' ∧ AtSlab s'.machine.mem cache := by
  obtain ⟨H, O, vs, h, hl⟩ := h
  obtain ⟨fuel, t, out, hok, rfl, -⟩ := returns_dump_iff.mp hr
  have hv := (atSlab_iff h.inv).mp hat
  by_cases h0 : load64 s.machine.mem (cacheSlabs cache) = 0
  · rw [dump_at_null h0] at hok
    split_ifs at hok
    cases hok
    exact ⟨⟨H, O, vs, h, hl⟩, hat⟩
  · have hnull := (dump_at_slab hok h0).1
    obtain ⟨rest, m', -, -, hd, hr⟩ := dump_spec h.inv hv h0
    rcases hr flags fuel with hr | ⟨-, hr⟩
    · rw [hr] at hok
      cases hok
      have hI := inv_of_dump h.inv hd
      refine ⟨⟨H, O, vs, ⟨hI, hL.write h.good fun a ha => hd a ?_, h.handed⟩, hl⟩,
        (atSlab_iff hI).mpr (Or.inl hnull)⟩
      rintro (hb | ⟨p, hp, hb⟩)
      · exact ha cache (hL.handed h.good (h.handed (Set.mem_insert _ _))) (mem_page.mpr (by omega))
      · exact ha p (hL.handed h.good (h.handed (Set.mem_insert_of_mem _ hp))) (mem_page.mpr (by omega))
    · rw [hr] at hok
      cases hok

/-- **A call keeps the invariant.** -/
theorem keeps_call {o : CacheOp} (h : Keeps Good size cache home s ∧ AtSlab s.machine.mem cache)
    (hs : CacheStep A size cache s o s') (ht : Tame home cache s o) :
    Keeps Good size cache home s' ∧ AtSlab s'.machine.mem cache := by
  obtain ⟨hv, r, hr⟩ := hs
  cases o with
  | slab o =>
    have hst := step_of_returns (hv o rfl) hr
    exact ⟨keeps_step hL h.1 hst ht.1 ht.2, atSlab_step hL h.1 h.2 hst⟩
  | dump flags => exact keeps_dump hL h.1 h.2 hr

/-- **The parts of the law** in every state of a run with dumps that has a slab: the dump is complete
exactly if the cursor is at the head; it repeats, and does no harm, exactly if it prints nothing. -/
theorem dump_parts {flags flags' : SlabFlags} {name : ℕ} {t₀ t : Machine σ} {H : Set ℕ}
    {ops : List CacheOp} (hs : 16 ≤ size) (hG : Good t₀ H) (hc : cache ≠ 0)
    (hnew : slabCacheCreate A flags name size t₀ = .ok (cache, t))
    (hr : Run (fun s o s' => CacheStep A size cache s o s' ∧ Tame home cache s o) ⟨t, []⟩ ops s)
    (hhead : load64 s.machine.mem (cacheHead cache) ≠ 0) :
    (Complete flags' cache s.machine ↔
      load64 s.machine.mem (cacheSlabs cache) = load64 s.machine.mem (cacheHead cache)) ∧
    (Repeats flags' cache s.machine ↔ load64 s.machine.mem (cacheSlabs cache) = 0 ∧
      flags'.panic = false) ∧
    (Harmless A flags' cache s ↔ load64 s.machine.mem (cacheSlabs cache) = 0) := by
  obtain ⟨⟨G, O, vs, h, -⟩, hat⟩ := hr.invariant
    (I := fun s => Keeps Good size cache home s ∧ AtSlab s.machine.mem cache)
    ⟨keeps_create hL home hs hG hc hnew, atSlab_create hL hs hG hc hnew⟩
    fun _ _ _ h hst => keeps_call hL h hst.1 hst.2
  exact ⟨complete_iff h.inv hhead, repeats_iff, harmless_iff h.inv ((atSlab_iff h.inv).mp hat)⟩

end Runs

/-! ### The law -/

/-- **The law of the dump holds in no state** of a cache with a slab: where the dump is complete, the next
one is not the same, and misses what it would have printed. -/
theorem dumpLaw_never (flags : SlabFlags) {s : SlabState σ}
    (hhead : load64 s.machine.mem (cacheHead cache) ≠ 0) : ¬ DumpLaw A flags cache s ∧
      (Complete flags cache s.machine →
        ¬ Repeats flags cache s.machine ∧ ¬ Harmless A flags cache s) := by
  have hnot : Complete flags cache s.machine →
      ¬ Repeats flags cache s.machine ∧ ¬ Harmless A flags cache s := by
    intro hc
    have hcur := cursor_of_complete hc hhead
    obtain ⟨slabs, fuel, s', -, hok⟩ := hc
    exact ⟨fun hr => hhead (hcur.symm.trans (repeats_iff.mp hr).1), not_harmless hok (by rwa [hcur])⟩
  exact ⟨fun hlaw => (hnot hlaw.complete).1 hlaw.repeats, hnot⟩

theorem small_cursor : ∃ t a, slabCacheCreate pmmSource ⟨true, false⟩ 0 512 booted = .ok (8192, t) ∧
    CacheInv t.mem 512 8192 {a} [fresh 512 a] [] ∧ load64 t.mem (cacheHead 8192) ≠ 0 ∧
    load64 t.mem (cacheSlabs 8192) = load64 t.mem (cacheHead 8192) := by
  obtain ⟨t, a, hnew, h⟩ := small_cache
  obtain ⟨-, p, -, -, -, -, hhead, hcur⟩ := create_frame smallMap_lawful rfl handed_booted hnew
  refine ⟨t, a, hnew, h.inv, ?_, hcur.trans hhead.symm⟩
  rw [hhead, header]
  omega

theorem dumpLaw_never_small : ∃ t, slabCacheCreate pmmSource ⟨true, false⟩ 0 512 booted = .ok (8192, t) ∧
    load64 t.mem (cacheHead 8192) ≠ 0 ∧ ¬ DumpLaw pmmSource ⟨false, false⟩ 8192 ⟨t, []⟩ := by
  obtain ⟨t, a, hnew, -, hhead, -⟩ := small_cursor
  exact ⟨t, hnew, hhead, (dumpLaw_never (s := ⟨t, []⟩) ⟨false, false⟩ hhead).1⟩

/-- The first dump of the small cache is complete; the second one prints nothing. -/
theorem second_dump_prints_nothing : ∃ t s out,
    slabCacheCreate pmmSource ⟨true, false⟩ 0 512 booted = .ok (8192, t) ∧
    Complete ⟨false, false⟩ 8192 t ∧
    Returns pmmSource 8192 ⟨t, []⟩ (.dump ⟨false, false⟩, .printed out) s ∧ out ≠ [] ∧
    load64 s.machine.mem (cacheHead 8192) ≠ 0 ∧
    (∀ fuel, slabCacheDump ⟨false, false⟩ 8192 fuel s.machine = .ok (s.machine, [])) ∧
    ¬ Complete ⟨false, false⟩ 8192 s.machine := by
  obtain ⟨t, a, hnew, hI, hhead, hcur⟩ := small_cursor
  obtain ⟨hcomplete, t', out, hr, hout, hhead', hnull⟩ := dump_twice ⟨false, false⟩ hI hcur hhead
  refine ⟨t, ⟨t', []⟩, out, hnew, hcomplete, returns_dump_iff.mpr ⟨_, t', out, hr, rfl, rfl⟩, hout,
    hhead', fun fuel => ?_, fun hc => ?_⟩
  · exact (dump_at_null hnull).trans (if_neg (by simp))
  · exact hhead' ((cursor_of_complete hc hhead').symm.trans hnull)

end FusionCore.Mm.SlabDump
