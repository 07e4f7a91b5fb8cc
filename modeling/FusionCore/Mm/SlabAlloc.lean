import FusionCore.Mm.SlabFresh

/-! # When `slab_cache_alloc` returns

Without a free buffer `slab_cache_alloc` grows the cache and calls itself. Growth that gets a page
adds a slab with free buffers, which the second call finds. Growth that gets none returns as if
nothing were wrong unless `SLAB_PANIC` is set, and the second call is made in the same situation.

* `alloc_ends_iff`: the call ends exactly unless it may grow, may not panic, finds no free buffer and
  gets no page.
* `alloc_recurses`: in that case no number of steps is enough. -/

namespace FusionCore.Mm.SlabAlloc

open FusionCore.Lib.ByteMem FusionCore.Lib.NullChain
open FusionCore.Mm.Defs FusionCore.Mm.Phys FusionCore.Mm.PhysInit FusionCore.Mm.Pages
  FusionCore.Mm.PhysPages
open FusionCore.Mm.Slab FusionCore.Mm.SlabView FusionCore.Mm.SlabRep FusionCore.Mm.SlabOps
open FusionCore.Mm.SlabGrow FusionCore.Mm.SlabLife FusionCore.Mm.SlabFresh
open FusionCore.Mm.PhysSpec (Found smallMap)

/-! ### The search along a path -/

section Seek
variable {test : Mem → ℕ → Bool} {m : Mem} {cache b : ℕ} {l : List ℕ}

theorem seek_path
    (hpath : Path (fun a => load64 m (slabNext a)) (load64 m (cacheSlabs cache)) l b)
    (hoff : ∀ a ∈ l, a + 8 ≤ cache + 32 ∨ cache + 40 ≤ a)
    (hl : ∀ a ∈ l, ∀ m', DiffersOn (cursor cache) m m' → test m' a = false) :
    ∃ m', DiffersOn (cursor cache) m m' ∧ load64 m' (cacheSlabs cache) = b ∧
      ∀ fuel, seek test cache fuel m = seek test cache (fuel - l.length) m' := by
  induction l generalizing m with
  | nil => exact ⟨m, DiffersOn.refl _ _, path_nil_iff.mp hpath, fun _ => rfl⟩
  | cons a l ih =>
    obtain ⟨ha, h0, hrest⟩ := path_cons_iff.mp hpath
    rw [ha] at h0 hrest
    have hd : DiffersOn (cursor cache) m (store64 m (cacheSlabs cache) (load64 m (slabNext a))) :=
      differsOn_store64 (DiffersOn.refl _ _) fun _ h => h
    have hnext : Path (fun x =>
        load64 (store64 m (cacheSlabs cache) (load64 m (slabNext a))) (slabNext x))
        (load64 (store64 m (cacheSlabs cache) (load64 m (slabNext a))) (cacheSlabs cache)) l b := by
      rw [load64_store64 (load64_lt _ _)]
      refine hrest.congr fun x hx => hd.load64 fun y hy => ?_
      have hx := hoff x (List.mem_cons_of_mem _ hx)
      simp only [cursor, cacheSlabs, slabNext, Set.mem_Ico] at hy ⊢
      omega
    obtain ⟨m', hd', hcur, hseek⟩ := ih hnext (fun x hx => hoff x (List.mem_cons_of_mem _ hx))
      fun x hx m' hm' => hl x (List.mem_cons_of_mem _ hx) m' (hd.trans hm')
    refine ⟨m', hd.trans hd', hcur, fun fuel => ?_⟩
    cases fuel with
    | zero =>
      rw [Nat.zero_sub]
      rfl
    | succ fuel =>
      rw [seek, ha, if_neg h0, hl a (List.mem_cons_self ..) m (DiffersOn.refl _ _), List.length_cons,
        Nat.add_sub_add_right, ← hseek]
      rfl

theorem seek_stop
    (hpath : Path (fun a => load64 m (slabNext a)) (load64 m (cacheSlabs cache)) l b)
    (hoff : ∀ a ∈ l, a + 8 ≤ cache + 32 ∨ cache + 40 ≤ a)
    (hl : ∀ a ∈ l, ∀ m', DiffersOn (cursor cache) m m' → test m' a = false)
    (hb : b = 0 ∨ ∀ m', DiffersOn (cursor cache) m m' → test m' b = true) :
    ∃ m', DiffersOn (cursor cache) m m' ∧ load64 m' (cacheSlabs cache) = b ∧
      (∀ fuel ≤ l.length, seek test cache fuel m = .error .outOfFuel) ∧
      ∀ fuel, l.length < fuel → seek test cache fuel m = .ok m' := by
  obtain ⟨m', hd, hcur, hseek⟩ := seek_path hpath hoff hl
  refine ⟨m', hd, hcur, fun fuel hf => ?_, fun fuel hf => ?_⟩
  · rw [hseek, Nat.sub_eq_zero_of_le hf]
    rfl
  obtain ⟨k, hk⟩ := Nat.exists_eq_succ_of_ne_zero (show fuel - l.length ≠ 0 by omega)
  rw [hseek, hk, seek, hcur]
  rcases hb with hb | hb
  · rw [if_pos hb]
  · rw [if_pos (hb m' hd), ite_self]

end Seek

/-- No slab of the pages `L` has a free buffer. -/
def Full (m : Mem) (L : List ℕ) : Prop := ∀ p ∈ L, load64 m (slabFreeHead (header p)) = 0

/-! ### One call -/

section Call
variable {σ : Type} {s : Machine σ} {cache b p : ℕ} {l : List ℕ} (A : PageSource σ)
  (hc : cache % 4096 = 0 ∧ cache ≠ 0) (hl : ∀ q ∈ l, q % 4096 = 0 ∧ q ≠ cache) (hfull : Full s.mem l)
  (hpath : Path (fun a => load64 s.mem (slabNext a)) (load64 s.mem (cacheHead cache)) (l.map header) b)
include hc hl hfull hpath

theorem seek_head (hb : b = 0 ∨ ∃ p, b = header p ∧ p % 4096 = 0 ∧ p ≠ cache ∧
      load64 s.mem (slabFreeHead (header p)) ≠ 0) :
    ∃ m', DiffersOn (cursor cache) s.mem m' ∧ load64 m' (cacheSlabs cache) = b ∧
      (∀ fuel ≤ l.length, seek hasFree cache fuel
        (store64 s.mem (cacheSlabs cache) (load64 s.mem (cacheHead cache))) = .error .outOfFuel) ∧
      ∀ fuel, l.length < fuel → seek hasFree cache fuel
        (store64 s.mem (cacheSlabs cache) (load64 s.mem (cacheHead cache))) = .ok m' := by
  have hd : DiffersOn (cursor cache) s.mem
      (store64 s.mem (cacheSlabs cache) (load64 s.mem (cacheHead cache))) :=
    differsOn_store64 (DiffersOn.refl _ _) fun _ h => h
  -- the headers lie apart from the cursor
  have hfield : ∀ q k, q % 4096 = 0 → q ≠ cache → k ≤ 24 → ∀ m', DiffersOn (cursor cache) s.mem m' →
      load64 m' (header q + k) = load64 s.mem (header q + k) := fun q k h1 h2 h3 m' hm' =>
    hm'.load64 fun y hy => by
      simp only [cursor, cacheSlabs, header, Set.mem_Ico] at hy ⊢
      omega
  have hcur : Path (fun a => load64 (store64 s.mem (cacheSlabs cache) (load64 s.mem (cacheHead cache)))
      (slabNext a)) (load64 (store64 s.mem (cacheSlabs cache) (load64 s.mem (cacheHead cache)))
      (cacheSlabs cache)) (l.map header) b := by
    rw [load64_store64 (load64_lt _ _)]
    refine hpath.congr fun x hx => ?_
    obtain ⟨q, hq, rfl⟩ := List.mem_map.mp hx
    exact hfield q 0 (hl q hq).1 (hl q hq).2 (by norm_num) _ hd
  have hoff : ∀ x ∈ l.map header, x + 8 ≤ cache + 32 ∨ cache + 40 ≤ x := fun x hx => by
    obtain ⟨q, hq, rfl⟩ := List.mem_map.mp hx
    have := hl q hq
    unfold header
    omega
  have hskip : ∀ x ∈ l.map header, ∀ m', DiffersOn (cursor cache)
      (store64 s.mem (cacheSlabs cache) (load64 s.mem (cacheHead cache))) m' → hasFree m' x = false :=
    fun x hx m' hm' => by
      obtain ⟨q, hq, rfl⟩ := List.mem_map.mp hx
      have hfr : load64 m' (slabFreeHead (header q)) = 0 :=
        (hfield q 16 (hl q hq).1 (hl q hq).2 (by norm_num) _ (hd.trans hm')).trans (hfull q hq)
      simp [hasFree, hfr]
  have hend : b = 0 ∨ ∀ m', DiffersOn (cursor cache)
      (store64 s.mem (cacheSlabs cache) (load64 s.mem (cacheHead cache))) m' → hasFree m' b = true := by
    rcases hb with hb | ⟨p, rfl, hp4, hpc, hp0⟩
    · exact Or.inl hb
    · refine Or.inr fun m' hm' => ?_
      have hfr : load64 m' (slabFreeHead (header p)) = load64 s.mem (slabFreeHead (header p)) :=
        hfield p 16 hp4 hpc (by norm_num) _ (hd.trans hm')
      simp [hasFree, hfr, hp0]
  obtain ⟨m', hd', hb', hshort, hseek⟩ := seek_stop hcur hoff hskip hend
  rw [List.length_map] at hshort hseek
  exact ⟨m', hd.trans hd', hb', hshort, hseek⟩

/-- **A free buffer** in a slab of the list is returned. -/
theorem alloc_found (flags : SlabFlags) (hb : b = header p) (hp : p % 4096 = 0 ∧ p ≠ cache)
    (hp0 : load64 s.mem (slabFreeHead (header p)) ≠ 0) {fuel : ℕ} (hf : l.length + 1 < fuel) :
    ∃ s', slabCacheAlloc A flags cache fuel s = .ok (load64 s.mem (slabFreeHead (header p)), s') := by
  obtain ⟨m', hd, hcur, -, hseek⟩ := seek_head hc hl hfull hpath (Or.inr ⟨p, hb, hp.1, hp.2, hp0⟩)
  obtain ⟨k, rfl⟩ := Nat.exists_eq_succ_of_ne_zero (show fuel ≠ 0 by omega)
  have hh0 : header p ≠ 0 := by unfold header; omega
  have hfr : load64 m' (slabFreeHead (header p)) = load64 s.mem (slabFreeHead (header p)) :=
    hd.load64 fun y hy => by
      simp only [cursor, cacheSlabs, slabFreeHead, header, Set.mem_Ico] at hy ⊢
      omega
  rw [hb] at hcur
  rw [slabCacheAlloc, if_neg hc.2, hseek k (by omega)]
  simp only [hcur, if_neg hh0, takeBufctl, hfr]
  exact ⟨_, rfl⟩

/-- **No free buffer**: the call grows the cache and starts again, panics or returns NULL. -/
theorem alloc_full (hb : b = 0) : ∃ m', DiffersOn (cursor cache) s.mem m' ∧
    (∀ flags, ∀ fuel ≤ l.length, slabCacheAlloc A flags cache (fuel + 1) s = .error .outOfFuel) ∧
    ∀ flags fuel, l.length < fuel → slabCacheAlloc A flags cache (fuel + 1) s =
      if flags.autoGrow then
        match slabCacheGrow A flags cache 1 { s with mem := m' } with
        | .error e => .error e
        | .ok s' => slabCacheAlloc A flags cache fuel s'
      else if flags.panic then
        .error (.panic "slab_cache_alloc('%s'): Couldn't find allocatable memory\n")
      else .ok (0, { s with mem := m' }) := by
  obtain ⟨m', hd, hcur, hshort, hseek⟩ := seek_head hc hl hfull hpath (Or.inl hb)
  refine ⟨m', hd, fun flags fuel hf => ?_, fun flags fuel hf => ?_⟩
  · rw [slabCacheAlloc, if_neg hc.2, hshort fuel hf]
  · rw [hb] at hcur
    rw [slabCacheAlloc, if_neg hc.2, hseek fuel hf]
    exact if_pos hcur

end Call

/-! ### Growth by one slab -/

section Fresh
variable {m : Mem} {size cache p c : ℕ} {S : Set ℕ}

theorem init_freeHead (h : Setup m size cache p) (hfree : load64 m (slabFree (header p)) = 0) :
    ∀ n, n + 1 ≤ cap size → load64 (initBufctls m cache p (n + 1)) (slabFreeHead (header p)) = p := by
  intro n
  induction n with
  | zero =>
    intro hn
    have hp := h.page_ok
    have hslot : slot size p 0 = p := by simp [slot]
    rw [initBufctls, initBufctls, slabInitBufctls_eq h hn hfree]
    dsimp only
    rw [if_pos rfl, load64_store64_of_disjoint (by unfold slabFree slabFreeHead; omega),
      load64_store64 (by omega), hslot]
  | succ n ih =>
    intro hn
    obtain ⟨hd, hlast⟩ := init_frame h hfree (n + 1) (by omega)
    have hp := h.page_ok
    have hend := slot_end (show n + 1 < cap size by omega)
    have hend' := slot_end (show n < cap size by omega)
    rw [initBufctls, slabInitBufctls_eq (h.frame (hd.mono initBytes_subset)) (by omega) hlast]
    dsimp only
    rw [if_neg (Nat.succ_ne_zero n), Nat.add_sub_cancel,
      load64_store64_of_disjoint (by unfold slabFree slabFreeHead; omega),
      load64_store64_of_disjoint (by unfold bufctlNext slabFreeHead header slot; omega),
      load64_store64_of_disjoint (by unfold bufctlPtr slabFreeHead header slot; omega)]
    exact ih (by omega)

theorem addSlab_freeHead (hn : NewPage cache p) (hacc : Accepted size)
    (hsize : load64 m (cacheSlabSize cache) = size) (hmax : load64 m (cacheMax cache) = cap size)
    (hk : Hooked m (slabCreateSlab m cache p) cache p) (hd : DiffersOn S m (slabCreateSlab m cache p))
    (hSc : ∀ a ∈ S, a < cache + 8 ∨ cache + 24 ≤ a) :
    load64 (addSlab m cache p) (slabFreeHead (header p)) = p := by
  have hcw : ∀ k, 8 ≤ k → k ≤ 16 → load64 (slabCreateSlab m cache p) (cache + k) = load64 m (cache + k) :=
    fun k h1 h2 => hd.load64 fun b hb => by have := hSc b hb; omega
  have hset : Setup (slabCreateSlab m cache p) size cache p :=
    ⟨hn.page_ok, hn.cache_ok, hn.ne, (hcw 8 le_rfl (by norm_num)).trans hsize, hk.at_cursor⟩
  have hcap := hacc.cap_ge
  obtain ⟨n, hn⟩ : ∃ n, cap size = n + 1 := ⟨cap size - 1, by omega⟩
  unfold addSlab
  rw [show load64 (slabCreateSlab m cache p) (cacheMax cache) = n + 1 from
    ((hcw 16 (by norm_num) le_rfl).trans hmax).trans hn]
  exact init_freeHead hset hk.free n hn.ge

end Fresh

section Grow
variable {σ : Type} {A : PageSource σ} {arena : Set ℕ} {Good : Machine σ → Set ℕ → Prop}
  {s : Machine σ} {H : Set ℕ} {size cache : ℕ} {L : List ℕ} {flags : SlabFlags} (hL : Lawful A arena Good)
  (hG : Good s H) (h : Listed s.mem size cache H L)
include hL hG h

theorem listed_pages : (cache % 4096 = 0 ∧ cache ≠ 0) ∧ ∀ q ∈ L, q % 4096 = 0 ∧ q ≠ cache :=
  ⟨⟨(hL.pages (hL.handed hG h.cache_mem)).1, (hL.pages (hL.handed hG h.cache_mem)).2.1⟩,
    fun q hq => ⟨(hL.pages (hL.handed hG (h.slabs_mem q hq).1)).1, (h.slabs_mem q hq).2⟩⟩

omit hL hG h in
theorem full_samePages {m m' : Mem} (h : Listed m size cache H L) (hfull : Full m L)
    (hs : SamePages H m m') : Full m' L := by
  intro q hq
  rw [← hfull q hq]
  refine load64_congr fun b hb => hs q (h.slabs_mem q hq).1 ?_
  simp only [slabFreeHead, header, Set.mem_Ico, mem_page] at hb ⊢
  omega

theorem listed_cursor {m : Mem} (hd : DiffersOn (cursor cache) s.mem m) (hfull : Full s.mem L) :
    Good { s with mem := m } H ∧ Listed m size cache H L ∧ Full m L := by
  obtain ⟨hc, hl⟩ := listed_pages hL hG h
  have hfield : ∀ q ∈ L, ∀ k ≤ 24, load64 m (header q + k) = load64 s.mem (header q + k) :=
    fun q hq k hk => hd.load64 fun b hb => by
      have := hl q hq
      simp only [cursor, cacheSlabs, header, Set.mem_Ico] at hb ⊢
      omega
  have hrec : ∀ k ≤ 24, load64 m (cache + k) = load64 s.mem (cache + k) := fun k hk =>
    hd.load64 fun b hb => by
      simp only [cursor, cacheSlabs, Set.mem_Ico] at hb
      omega
  refine ⟨SlabReap.good_cursor hL hG (hL.handed hG h.cache_mem) hd,
    ⟨(hrec 8 (by norm_num)).trans h.size_eq, (hrec 16 (by norm_num)).trans h.max_eq, ?_, h.cache_mem,
      h.slabs_mem⟩, fun q hq => (hfield q hq 16 (by norm_num)).trans (hfull q hq)⟩
  rw [show load64 m (cacheHead cache) = load64 s.mem (cacheHead cache) from hrec 24 le_rfl]
  refine h.list.congr fun a ha => ?_
  obtain ⟨q, hq, rfl⟩ := List.mem_map.mp ha
  exact hfield q hq 0 (Nat.zero_le _)

/-- **Growth without a page** panics or leaves the cache as it is. -/
theorem grow_fails (flags : SlabFlags) (hfull : Full s.mem L)
    (hfail : ∀ t, Good t H → (A.allocz t).1 = 0) :
    ∃ s', slabCacheGrow A flags cache 1 s =
        (if flags.panic then .error (.panic "Slab cache grow ('%s'): Couldn't create bufctl\n")
          else .ok s') ∧
      Good s' H ∧ Listed s'.mem size cache H L ∧ Full s'.mem L := by
  obtain ⟨heq, -, -, -, hd⟩ := rewound hL flags 1 hG h
  obtain ⟨hG₁, h₁, hfull₁⟩ := listed_cursor hL hG h hd hfull
  generalize store64 s.mem (cacheSlabs cache) (load64 s.mem (cacheHead cache)) = m₁ at heq hG₁ h₁ hfull₁
  have h0 := hfail _ hG₁
  obtain ⟨hs, hG₂⟩ := hL.exhausted hG₁ h0
  refine ⟨(A.allocz { s with mem := m₁ }).2, ?_, hG₂, (listed_samePages h₁ hs).1,
    full_samePages h₁ hfull₁ hs⟩
  have hr : slabCreateBufctl A { s with mem := m₁ } = (0, (A.allocz { s with mem := m₁ }).2) := by
    rw [slabCreateBufctl, if_pos h0]
  rw [heq, growLoop, hr]
  exact if_pos rfl

/-- **Growth with a page** adds a slab with free buffers behind the first one. -/
theorem grow_gets (flags : SlabFlags) (hacc : Accepted size) (hfull : Full s.mem L)
    (hmore : ¬ Exhausted A Good H) :
    ∃ s' l q, slabCacheGrow A flags cache 1 s = .ok s' ∧ (∀ x ∈ l, x % 4096 = 0 ∧ x ≠ cache) ∧
      Full s'.mem l ∧ (q % 4096 = 0 ∧ q ≠ cache) ∧ q ≠ 0 ∧
      Path (fun a => load64 s'.mem (slabNext a)) (load64 s'.mem (cacheHead cache))
        (l.map header) (header q) ∧
      load64 s'.mem (slabFreeHead (header q)) = q := by
  obtain ⟨hc, hl⟩ := listed_pages hL hG h
  obtain ⟨heq, hG₁, h₁, hcur₁, hd₁⟩ := rewound hL flags 1 hG h
  obtain ⟨-, -, hfull₁⟩ := listed_cursor hL hG h hd₁ hfull
  generalize store64 s.mem (cacheSlabs cache) (load64 s.mem (cacheHead cache)) =
    m₁ at heq hG₁ h₁ hcur₁ hfull₁
  rcases slabCreateBufctl_spec hL hG₁ with ⟨-, -, -, -, hex⟩ | ⟨p, s₂, hp0, hr, hp, hz, hs₂, hG₂⟩
  · exact absurd hex hmore
  obtain ⟨h₂, hcur₂, hhead₂⟩ := listed_samePages h₁ hs₂
  have hfull₂ := full_samePages h₁ hfull₁ hs₂
  have hn := newPage_of_good hL hG₂ h.cache_mem hp
  have hpo := hn.page_ok
  have hne := hn.ne
  rw [heq, growLoop_got hr hp0, growLoop]
  cases L with
  | nil =>
    have hnull : load64 s₂.mem (cacheSlabs cache) = 0 :=
      hcur₂.trans (hcur₁.trans (chain_nil_iff.mp h₁.list))
    obtain ⟨hk, -, hd⟩ := createSlab_first hn hnull
    have hfree := addSlab_freeHead hn hacc h₂.size_eq h₂.max_eq hk hd fun a ha => by
      simp only [header, Set.mem_union, Set.mem_Ico] at ha
      omega
    obtain ⟨-, hhead, -⟩ := addSlab_frame hn h₂.size_eq h₂.max_eq hnull
    generalize addSlab s₂.mem cache p = M at hfree hhead ⊢
    refine ⟨_, [], p, rfl, by
      simp, fun _ hx => absurd hx List.not_mem_nil, ⟨hpo.1, hne.symm⟩, hp0, ?_, hfree⟩
    show Path _ (load64 M (cacheHead cache)) [] (header p)
    rw [hhead]
    exact .nil
  | cons c L =>
    obtain ⟨hhead, -, -⟩ := chain_cons_iff.mp h₂.list
    obtain ⟨hc4, hcc⟩ := hl c (List.mem_cons_self ..)
    have hcp : c ≠ p := fun he => hp (he ▸ (h.slabs_mem c (List.mem_cons_self ..)).1)
    have hcur : load64 s₂.mem (cacheSlabs cache) = header c :=
      hcur₂.trans (hcur₁.trans (hhead₂.symm.trans hhead))
    obtain ⟨hk, -, hd⟩ := createSlab_after hn hc4 hcp hcc hcur
    have hfree := addSlab_freeHead hn hacc h₂.size_eq h₂.max_eq hk hd fun a ha => by
      simp only [header, Set.mem_union, Set.mem_Ico] at ha
      omega
    obtain ⟨hlink, -, -, hd'⟩ := addSlab_link hn hacc h₂.size_eq h₂.max_eq hz hc4 hcp hcc hcur
    generalize addSlab s₂.mem cache p = M at hfree hlink hd' ⊢
    have hhead' : load64 M (cacheHead cache) = header c := by
      refine (hd'.load64 fun b hb => ?_).trans hhead
      simp only [cursor, cacheSlabs, cacheHead, header, Set.mem_union, Set.mem_Ico, mem_page] at hb ⊢
      omega
    have hfull' : load64 M (slabFreeHead (header c)) = 0 := by
      refine (hd'.load64 fun b hb => ?_).trans (hfull₂ c (List.mem_cons_self ..))
      simp only [cursor, cacheSlabs, slabFreeHead, header, Set.mem_union, Set.mem_Ico, mem_page] at hb ⊢
      omega
    refine ⟨_, [c], p, rfl, fun x hx => ?_, fun x hx => ?_, ⟨hpo.1, hne.symm⟩, hp0, ?_, hfree⟩
    · rw [List.mem_singleton.mp hx]
      exact ⟨hc4, hcc⟩
    · rw [List.mem_singleton.mp hx]
      exact hfull'
    · show Path (fun a => load64 M (slabNext a)) (load64 M (cacheHead cache)) [header c] (header p)
      rw [hhead']
      refine .cons (by unfold header; omega) ?_
      rw [hlink]
      exact .nil

omit h in
theorem create_bare (flags : SlabFlags) (name : ℕ) (hacc : Accepted size)
    (h0 : (A.allocz s).1 = cache) (hc0 : cache ≠ 0)
    (hquiet : flags.panic = false) (hfail : ∀ t, Good t (insert cache H) → (A.allocz t).1 = 0) :
    ∃ t, slabCacheCreate A flags name size s = .ok (cache, t) ∧ Good t (insert cache H) ∧
      Listed t.mem size cache (insert cache H) [] := by
  subst h0
  obtain ⟨heq, hG₁, -, hsize, hmax, -⟩ := create_loop hL flags name hacc.1 hacc.2 hG hc0
  obtain ⟨-, hz, -⟩ := hL.alloc hG hc0
  have hhead : load64 (blankCache (A.allocz s).2.mem (A.allocz s).1 name size)
      (cacheHead (A.allocz s).1) = 0 :=
    (load64_store64_of_disjoint (by unfold cacheSlabs cacheHead; omega)).trans
      (writeCache_spec name hacc.1 hz).2.2.1
  generalize blankCache (A.allocz s).2.mem (A.allocz s).1 name size = m₁ at heq hG₁ hsize hmax hhead
  have hl : Listed m₁ size (A.allocz s).1 (insert (A.allocz s).1 H) [] :=
    ⟨hsize, hmax, chain_nil_iff.mpr hhead, Set.mem_insert _ _, by simp⟩
  have h1 := hfail _ hG₁
  obtain ⟨hs, hG₂⟩ := hL.exhausted hG₁ h1
  refine ⟨_, ?_, hG₂, (listed_samePages hl hs).1⟩
  rw [heq, growLoop, slabCreateBufctl, if_pos h1, if_pos rfl, hquiet]
  rfl

/-- **The second call finds the new slab.** -/
theorem alloc_grows (hacc : Accepted size) (hfull : Full s.mem L) (hauto : flags.autoGrow = true)
    (hmore : ¬ Exhausted A Good H) :
    ∃ fuel b s', b ≠ 0 ∧ slabCacheAlloc A flags cache fuel s = .ok (b, s') := by
  obtain ⟨hc, hl⟩ := listed_pages hL hG h
  obtain ⟨m', hd, -, hcall⟩ := alloc_full A hc hl hfull h.list.path rfl
  obtain ⟨hG', h', hfull'⟩ := listed_cursor hL hG h hd hfull
  obtain ⟨s₁, l, q, hgrow, hl', hfull₁, hq, hq0, hpath, hfree⟩ :=
    grow_gets hL hG' h' flags hacc hfull' hmore
  obtain ⟨s', hok⟩ := alloc_found A hc hl' hfull₁ hpath flags rfl hq (by rwa [hfree])
    (show l.length + 1 < L.length + l.length + 2 by omega)
  refine ⟨L.length + l.length + 2 + 1, q, s', hq0, ?_⟩
  rw [hcall flags _ (by omega), if_pos hauto, hgrow]
  dsimp only
  rw [hok, hfree]

/-- **Without a page the call is made again and again**: no number of steps is enough. -/
theorem alloc_recurses (hfull : Full s.mem L) (hauto : flags.autoGrow = true)
    (hquiet : flags.panic = false) (hfail : ∀ t, Good t H → (A.allocz t).1 = 0) (fuel : ℕ) :
    slabCacheAlloc A flags cache fuel s = .error .outOfFuel := by
  induction fuel generalizing s with
  | zero => rfl
  | succ fuel ih =>
    obtain ⟨hc, hl⟩ := listed_pages hL hG h
    obtain ⟨m', hd, hshort, hcall⟩ := alloc_full A hc hl hfull h.list.path rfl
    rcases Nat.lt_or_ge L.length fuel with hf | hf
    · obtain ⟨hG', h', hfull'⟩ := listed_cursor hL hG h hd hfull
      obtain ⟨s₁, hgrow, hG₁, h₁, hfull₁⟩ := grow_fails hL hG' h' flags hfull' hfail
      rw [hquiet] at hgrow
      rw [hcall flags fuel hf, if_pos hauto, hgrow]
      exact ih hG₁ h₁ hfull₁
    · exact hshort flags fuel hf

end Grow

/-! ### A search that has ended -/

section Ended
variable {σ : Type} {A : PageSource σ} {s s' : Machine σ} {cache fuel b : ℕ}

theorem seek_ok {test : Mem → ℕ → Bool} {m m' : Mem} (h : seek test cache fuel m = .ok m') :
    load64 m' (cacheSlabs cache) = 0 ∨ test m' (load64 m' (cacheSlabs cache)) = true := by
  induction fuel generalizing m with
  | zero => cases h
  | succ fuel ih =>
    rw [seek] at h
    split_ifs at h with h0 ht
    · cases h
      exact Or.inl h0
    · cases h
      exact Or.inr ht
    · exact ih h

theorem seek_no_panic {test : Mem → ℕ → Bool} {msg : String} (fuel : ℕ) (m : Mem) :
    seek test cache fuel m ≠ .error (.panic msg) := by
  induction fuel generalizing m with
  | zero =>
    intro h
    cases h
  | succ fuel ih =>
    rw [seek]
    split_ifs
    · exact fun h => by cases h
    · exact fun h => by cases h
    · exact ih _

/-- The search of `slab_cache_alloc` ends at NULL: no slab of the list has a free buffer. -/
def NoBuffer (m : Mem) (cache : ℕ) : Prop :=
  ∃ fuel m',
    seek hasFree cache fuel (store64 m (cacheSlabs cache) (load64 m (cacheHead cache))) = .ok m' ∧
    load64 m' (cacheSlabs cache) = 0

theorem alloc_panic_eq (A : PageSource σ) (s : Machine σ) (hc : cache ≠ 0) (fuel : ℕ) :
    slabCacheAlloc A ⟨true, false⟩ cache (fuel + 1) s =
      match seek hasFree cache fuel (store64 s.mem (cacheSlabs cache)
        (load64 s.mem (cacheHead cache))) with
      | .error e => .error e
      | .ok m =>
        if load64 m (cacheSlabs cache) = 0 then
          .error (.panic "slab_cache_alloc('%s'): Couldn't find allocatable memory\n")
        else .ok ((takeBufctl m cache).1, { s with mem := (takeBufctl m cache).2 }) := by
  rw [slabCacheAlloc, if_neg hc]
  rfl

theorem alloc_ne_zero (h : slabCacheAlloc A ⟨true, false⟩ cache fuel s = .ok (b, s')) : b ≠ 0 := by
  cases fuel with
  | zero => cases h
  | succ fuel =>
    by_cases hc : cache = 0
    · rw [slabCacheAlloc, if_pos hc] at h
      cases h
    rw [alloc_panic_eq A s hc] at h
    cases hseek : seek hasFree cache fuel
        (store64 s.mem (cacheSlabs cache) (load64 s.mem (cacheHead cache))) with
    | error e =>
      rw [hseek] at h
      cases h
    | ok m =>
      rw [hseek] at h
      dsimp only at h
      split_ifs at h with h0
      obtain ⟨rfl, -⟩ := Prod.mk.inj (Except.ok.inj h)
      exact of_decide_eq_true ((seek_ok hseek).resolve_left h0)

/-- **It panics** exactly if no slab has a free buffer. -/
theorem alloc_panics_iff (hc : cache ≠ 0) :
    (∃ fuel msg, slabCacheAlloc A ⟨true, false⟩ cache fuel s = .error (.panic msg)) ↔
      NoBuffer s.mem cache := by
  constructor
  · rintro ⟨fuel, msg, h⟩
    cases fuel with
    | zero => cases h
    | succ fuel =>
      rw [alloc_panic_eq A s hc] at h
      cases hseek : seek hasFree cache fuel
          (store64 s.mem (cacheSlabs cache) (load64 s.mem (cacheHead cache))) with
      | error e =>
        rw [hseek] at h
        cases h
        exact absurd hseek (seek_no_panic _ _)
      | ok m =>
        rw [hseek] at h
        dsimp only at h
        split_ifs at h with h0
        exact ⟨fuel, m, hseek, h0⟩
  · rintro ⟨fuel, m, hseek, h0⟩
    refine ⟨fuel + 1, "slab_cache_alloc('%s'): Couldn't find allocatable memory\n", ?_⟩
    rw [alloc_panic_eq A s hc, hseek]
    exact if_pos h0

end Ended

/-! ### When the call ends -/

/-- **The call ends**: after some number of steps it returns a buffer or NULL, or panics if
`SLAB_PANIC` is set. If it may grow the cache, finds no free buffer and the physical memory manager
has no page, it does not return a buffer. -/
def Ends (flags : SlabFlags) (cache : ℕ) (s : Machine Pmm) (L : List ℕ) : Prop :=
  ∃ fuel, (∃ b s', slabCacheAlloc pmmSource flags cache fuel s = .ok (b, s') ∧
      (flags.autoGrow = true → Full s.mem L → ¬ Found s 1 → b = 0)) ∨
    ∃ msg, slabCacheAlloc pmmSource flags cache fuel s = .error (.panic msg) ∧ flags.panic = true

theorem found_iff (s : Machine Pmm) : Found s 1 ↔ (pmmSource.allocz s).1 ≠ 0 := by
  obtain ⟨h1, h2⟩ := PhysSpec.pmmAlloc_fst s 1
  have hfst : (pmmSource.allocz s).1 = (pmmAlloc s 1).1 := rfl
  rw [hfst]
  refine ⟨fun h => (h1 h).2, fun h => ?_⟩
  by_contra hn
  exact h (by rw [h2 hn])

theorem first_free {m : Mem} {L : List ℕ} (h : ¬ Full m L) :
    ∃ l p r, L = l ++ p :: r ∧ Full m l ∧ load64 m (slabFreeHead (header p)) ≠ 0 := by
  induction L with
  | nil => exact absurd (fun _ hp => absurd hp List.not_mem_nil) h
  | cons c L ih =>
    by_cases hc : load64 m (slabFreeHead (header c)) = 0
    · obtain ⟨l, p, r, rfl, hl, hp⟩ := ih fun hL => h fun q hq => by
        rcases List.mem_cons.mp hq with rfl | hq
        · exact hc
        · exact hL q hq
      refine ⟨c :: l, p, r, rfl, fun q hq => ?_, hp⟩
      rcases List.mem_cons.mp hq with rfl | hq
      · exact hc
      · exact hl q hq
    · exact ⟨[], c, L, rfl, fun _ hq => absurd hq List.not_mem_nil, hc⟩

theorem noBuffer_iff_full {σ : Type} {A : PageSource σ} {arena : Set ℕ} {Good : Machine σ → Set ℕ → Prop}
    {s : Machine σ} {H : Set ℕ} {size cache : ℕ} {L : List ℕ} (hL : Lawful A arena Good) (hG : Good s H)
    (h : Listed s.mem size cache H L) : NoBuffer s.mem cache ↔ Full s.mem L := by
  obtain ⟨hc, hl⟩ := listed_pages hL hG h
  constructor
  · rintro ⟨fuel, m', hseek, h0⟩
    by_contra hfull
    obtain ⟨l, p, r, rfl, hfl, hp0⟩ := first_free hfull
    have hlist := h.list
    rw [List.map_append, List.map_cons] at hlist
    have hp := hl p (by simp)
    obtain ⟨m, -, hcur, hshort, hstop⟩ := seek_head hc (fun q hq => hl q (List.mem_append_left _ hq)) hfl
      hlist.path_to (Or.inr ⟨p, rfl, hp.1, hp.2, hp0⟩)
    rcases Nat.lt_or_ge l.length fuel with hf | hf
    · rw [hstop fuel hf] at hseek
      rw [Except.ok.inj hseek, h0] at hcur
      unfold header at hcur
      omega
    · rw [hshort fuel hf] at hseek
      cases hseek
  · intro hfull
    obtain ⟨m, -, hcur, -, hstop⟩ := seek_head hc hl hfull h.list.path (Or.inl rfl)
    exact ⟨L.length + 1, m, hstop _ (Nat.lt_succ_self _), hcur⟩

section Ends
variable {mmap : List MmapEntry} {base : List (ℕ × ℕ)} {s : Machine Pmm} {H : Set ℕ} {size cache : ℕ}
  {L : List ℕ} {flags : SlabFlags} (hw : WellFormed mmap) (hf : Fits mmap)
include hw hf

theorem fails_of_not_found (hG : Over mmap base s H) (hno : ¬ Found s 1) {t : Machine Pmm}
    (hT : Over mmap base t H) : (pmmSource.allocz t).1 = 0 := by
  rw [hT.fails_iff hw hf, hG.free_eq hT, ← hG.fails_iff hw hf]
  by_contra h0
  exact hno ((found_iff s).mpr h0)

section Listed
variable (hb : homeBase mmap ≠ 0) (hG : Over mmap base s H) (hl : Listed s.mem size cache H L)
include hb hG hl

theorem ends_of_full (hacc : Accepted size) (hfull : Full s.mem L)
    (hnot : flags.autoGrow = true → flags.panic = false → Found s 1) : Ends flags cache s L := by
  have hL := pmmSource_over hw hf hb base
  obtain ⟨hc, hpages⟩ := listed_pages hL hG hl
  obtain ⟨m', hd, -, hcall⟩ := alloc_full pmmSource hc hpages hfull hl.list.path rfl
  cases hauto : flags.autoGrow with
  | false =>
    refine ⟨L.length + 2, ?_⟩
    rw [hcall flags _ (Nat.lt_succ_self _), hauto]
    cases hp : flags.panic with
    | false => exact Or.inl ⟨0, _, by simp; rfl, fun _ _ _ => rfl⟩
    | true => exact Or.inr ⟨_, by simp; rfl, rfl⟩
  | true =>
    by_cases hfound : Found s 1
    · have hmore : ¬ Exhausted pmmSource (Over mmap base) H := by
        rintro ⟨t, hT, h0⟩
        rw [hT.fails_iff hw hf, hG.free_eq hT, ← hG.fails_iff hw hf] at h0
        exact (found_iff s).mp hfound h0
      obtain ⟨fuel, b, s', -, hok⟩ := alloc_grows hL hG hl hacc hfull hauto hmore
      exact ⟨fuel, Or.inl ⟨b, s', hok, fun _ _ hno => absurd hfound hno⟩⟩
    · -- growth panics
      have hp : flags.panic = true := by
        by_contra hp
        exact hfound (hnot hauto (by simpa using hp))
      obtain ⟨hG', hl', hfull'⟩ := listed_cursor hL hG hl hd hfull
      obtain ⟨s₁, hgrow, -⟩ := grow_fails hL hG' hl' flags hfull'
        fun t hT => fails_of_not_found hw hf hG hfound hT
      rw [if_pos hp] at hgrow
      have hend := hcall flags _ (Nat.lt_succ_self _)
      rw [if_pos hauto, hgrow] at hend
      exact ⟨_, Or.inr ⟨_, hend, hp⟩⟩

theorem ends_of_free (hfree : ¬ Full s.mem L) : Ends flags cache s L := by
  obtain ⟨hc, hpages⟩ := listed_pages (pmmSource_over hw hf hb base) hG hl
  obtain ⟨l, p, r, rfl, hfl, hp0⟩ := first_free hfree
  have hlist := hl.list
  rw [List.map_append, List.map_cons] at hlist
  obtain ⟨s', hok⟩ := alloc_found pmmSource hc
    (fun q hq => hpages q (List.mem_append_left _ hq)) hfl hlist.path_to flags rfl
    (hpages p (by simp)) hp0 (Nat.lt_succ_self _)
  exact ⟨_, Or.inl ⟨_, s', hok, fun _ hF _ => absurd hF hfree⟩⟩

end Listed

/-- **`slab_cache_alloc` ends** in every state of a cache with an acyclic list of slabs, unless the cache
exists, `SLAB_AUTO_GROW` is set and `SLAB_PANIC` is not, no slab has a free buffer and no page is free. -/
theorem alloc_ends_iff (hb : homeBase mmap ≠ 0) (hG : Over mmap base s H)
    (h : cache ≠ 0 → Listed s.mem size cache H L ∧ Accepted size) :
    Ends flags cache s L ↔ ¬ (cache ≠ 0 ∧ flags.autoGrow = true ∧ flags.panic = false ∧ Full s.mem L ∧
      ¬ Found s 1) := by
  have hL := pmmSource_over hw hf hb base
  constructor
  · rintro ⟨fuel, hend⟩ ⟨hc0, hauto, hquiet, hfull, hno⟩
    have hrec := alloc_recurses hL hG (h hc0).1 hfull hauto hquiet
      (fun t hT => fails_of_not_found hw hf hG hno hT) fuel
    rcases hend with ⟨b, s', hok, -⟩ | ⟨msg, hpanic, -⟩
    · rw [hrec] at hok
      cases hok
    · rw [hrec] at hpanic
      cases hpanic
  · intro hnot
    by_cases hc0 : cache = 0
    · refine ⟨1, ?_⟩
      rw [slabCacheAlloc, if_pos hc0]
      cases hp : flags.panic with
      | false => exact Or.inl ⟨0, s, by simp, fun _ _ _ => rfl⟩
      | true => exact Or.inr ⟨_, by simp; rfl, rfl⟩
    obtain ⟨hl, hacc⟩ := h hc0
    by_cases hfull : Full s.mem L
    · refine ends_of_full hw hf hb hG hl hacc hfull fun hauto hquiet => ?_
      by_contra hno
      exact hnot ⟨hc0, hauto, hquiet, hfull, hno⟩
    · exact ends_of_free hw hf hb hG hl hfull

end Ends

theorem alloc_ends_iff_small : ∃ t a, slabCacheCreate pmmSource
    ⟨true, false⟩ 0 512 booted = .ok (8192, t) ∧
    Ends ⟨false, true⟩ 8192 t [a] := by
  obtain ⟨t, a, hnew, h⟩ := SlabSpec.small_cache
  have hl : Listed t.mem 512 8192 {8192, a} [a] := listed_of_owns h
  have hserves : (pmmSource.allocz t).1 ≠ 0 := smallMap_serves (F := {8192, a}) (by simpa using h.good)
    (lt_of_le_of_lt Finset.card_le_two (by norm_num))
  exact ⟨t, a, hnew, (alloc_ends_iff PhysSpec.smallMap_wellFormed PhysSpec.smallMap_fits (by decide)
    (over_nil.mpr h.good)
    fun _ => ⟨hl, le_rfl, by decide⟩).mpr fun hn => hn.2.2.2.2 ((found_iff t).mpr hserves)⟩

/-! ### A cache that cannot grow -/

/-- **`slab_cache_alloc` does not return** for a cache whose record took the last page. -/
theorem alloc_without_page : ∃ t,
    slabCacheCreate pmmSource ⟨false, true⟩ 0 512 (PhysRun.start (fewPages 1) fun _ => 0).machine =
      .ok (8192, t) ∧ Listed t.mem 512 8192 {8192} [] ∧
    (∀ fuel, slabCacheAlloc pmmSource ⟨false, true⟩ 8192 fuel t = .error .outOfFuel) ∧
      ¬ Ends ⟨false, true⟩ 8192 t [] := by
  have hL := fewPages_lawful (n := 1) (by norm_num)
  have hG := handed_few (n := 1) (by norm_num) fun _ => 0
  have hfail : ∀ t, Handed (fewPages 1) t (insert 8192 ∅) → (pmmSource.allocz t).1 = 0 := fun t hT =>
    (fewPages_fails_iff (by norm_num) hT).mpr fun i h1 h2 => Or.inl (by omega)
  obtain ⟨t, hnew, hG', hl⟩ := create_bare hL hG ⟨false, true⟩ 0
    (show Accepted 512 from ⟨le_rfl, by decide⟩) (by decide +kernel : _ = 8192) (by norm_num) rfl hfail
  have hfull : Full t.mem [] := fun _ hq => absurd hq List.not_mem_nil
  have hrec : ∀ fuel, slabCacheAlloc pmmSource ⟨false, true⟩ 8192 fuel t = .error .outOfFuel :=
    alloc_recurses hL hG' hl hfull rfl rfl hfail
  rw [insert_empty_eq] at hl
  refine ⟨t, hnew, hl, hrec, ?_⟩
  rintro ⟨fuel, ⟨b, s', hok, -⟩ | ⟨msg, hpanic, -⟩⟩
  · rw [hrec] at hok
    cases hok
  · rw [hrec] at hpanic
    cases hpanic

end FusionCore.Mm.SlabAlloc
