import FusionCore.Mm.SlabSpec

/-! # The cursor of a slab cache

`cache->slabs` is kept between the calls and each of them leaves it elsewhere: at the slab a buffer
was taken from or put on, at the last slab of a growth, at the head after `slab_cache_reap`, or at
NULL. It is always at a slab of the list, or at NULL (`AtSlab`); `atSlab_step` says so of every call
of a run. -/

namespace FusionCore.Mm.SlabCursor

open FusionCore.Lib.ByteMem FusionCore.Lib.NullChain
open FusionCore.Mm.Defs FusionCore.Mm.Pages FusionCore.Mm.Slab FusionCore.Mm.SlabView
open FusionCore.Mm.SlabRep FusionCore.Mm.SlabOps FusionCore.Mm.SlabGrow FusionCore.Mm.SlabLife
open FusionCore.Mm.SlabReap FusionCore.Mm.SlabSpec

variable {σ : Type} {A : PageSource σ} {arena : Set ℕ} {Good : Machine σ → Set ℕ → Prop}
  {s s' : Machine σ} {m m' : Mem} {flags : SlabFlags} {size cache fuel n ptr : ℕ} {H O X : Set ℕ}
  {vs pre post rest : List View} {v : View} {live : List ℕ}

/-- **The cursor is at a slab of the list**, or at NULL. -/
def AtSlab (m : Mem) (cache : ℕ) : Prop :=
  ∃ slabs, Slabs m (load64 m (cacheHead cache)) slabs ∧
    (load64 m (cacheSlabs cache) = 0 ∨ load64 m (cacheSlabs cache) ∈ slabs)

/-- The cursor is at one of the slabs `vs`, or at NULL. -/
def AtView (m : Mem) (cache : ℕ) (vs : List View) : Prop :=
  load64 m (cacheSlabs cache) = 0 ∨ ∃ v ∈ vs, load64 m (cacheSlabs cache) = header v.page

section Inv
variable (h : CacheInv m size cache O vs live)
include h

theorem atSlab_iff : AtSlab m cache ↔ AtView m cache vs := by
  constructor
  · rintro ⟨slabs, hc, hcur | hcur⟩
    · exact Or.inl hcur
    · rw [chain_unique hc h.rep.chain] at hcur
      obtain ⟨v, hv, he⟩ := List.mem_map.mp hcur
      exact Or.inr ⟨v, hv, he.symm⟩
  · rintro (hcur | ⟨v, hv, hcur⟩)
    · exact ⟨_, h.rep.chain, Or.inl hcur⟩
    · exact ⟨_, h.rep.chain, Or.inr (List.mem_map.mpr ⟨v, hv, hcur.symm⟩)⟩

theorem atSlab_of_frame (hat : AtView m cache vs) (hd : DiffersOn X m m')
    (hX : ∀ b ∈ X, (b < cache + 24 ∨ cache + 40 ≤ b) ∧
      ∀ u ∈ vs, b < header u.page ∨ header u.page + 8 ≤ b) :
    AtSlab m' cache := by
  have hhead : load64 m' (cacheHead cache) = load64 m (cacheHead cache) := hd.load64 fun b hb => by
    have := (hX b hb).1
    unfold cacheHead
    omega
  have hcur : load64 m' (cacheSlabs cache) = load64 m (cacheSlabs cache) := hd.load64 fun b hb => by
    have := (hX b hb).1
    unfold cacheSlabs
    omega
  refine ⟨vs.map fun v => header v.page, ?_, ?_⟩
  · rw [hhead]
    refine h.rep.chain.congr fun x hx => hd.load64 fun b hb => ?_
    obtain ⟨u, hu, rfl⟩ := List.mem_map.mp hx
    exact (hX b hb).2 u hu
  · rw [hcur]
    exact hat.imp_right fun ⟨v, hv, he⟩ => List.mem_map.mpr ⟨v, hv, he.symm⟩

/-- **The search** leaves the cursor at a slab of the list, or at NULL. -/
theorem atView_seek {test : Mem → ℕ → Bool} (hsub : ∀ w ∈ rest, w ∈ vs)
    (hcur : Slabs m (load64 m (cacheSlabs cache)) (rest.map fun v => header v.page))
    (hok : seek test cache fuel m = .ok m') :
    DiffersOn (cursor cache) m m' ∧ AtView m' cache vs := by
  induction fuel generalizing m rest with
  | zero => cases hok
  | succ fuel ih =>
    rw [seek] at hok
    split_ifs at hok with h0 htest
    · cases hok
      exact ⟨DiffersOn.refl _ _, Or.inl h0⟩
    · cases hok
      cases rest with
      | nil => exact absurd (chain_nil_iff.mp hcur) h0
      | cons v rest => exact ⟨DiffersOn.refl _ _,
          Or.inr ⟨v, hsub v (by simp), (chain_cons_iff.mp hcur).1⟩⟩
    · cases rest with
      | nil => exact absurd (chain_nil_iff.mp hcur) h0
      | cons v rest =>
        obtain ⟨hv, -, hd, hcur'⟩ := cursor_step hcur fun w hw => offCursor h w (hsub w hw)
        rw [hv] at hok
        obtain ⟨hd', hat⟩ := ih (of_cursor h hd) (fun w hw =>
          hsub w (List.mem_cons_of_mem _ hw)) hcur' hok
        exact ⟨hd.trans hd', hat⟩

/-- The bytes of the counts and the heads of the free lists, and of a buffer, are apart from the list
and the cursor. -/
theorem apart_of_list {b : ℕ}
    (hb : (∃ u ∈ vs, header u.page + 8 ≤ b ∧ b < header u.page + 24) ∨
      ∃ x, IsSlot size O x ∧ x ≤ b ∧ b < x + size) :
    (b < cache + 24 ∨ cache + 40 ≤ b) ∧ ∀ u ∈ vs, b < header u.page ∨ header u.page + 8 ≤ b := by
  have hc := h.cache_ok
  rcases hb with ⟨w, hw, hb⟩ | ⟨x, hx, hb⟩
  · have h1 := h.aligned _ (h.apart.owned w hw)
    have h2 : w.page ≠ cache := fun he => h.cache_new (he ▸ h.apart.owned w hw)
    unfold header at hb ⊢
    refine ⟨by omega, fun u hu => ?_⟩
    have h3 := h.aligned _ (h.apart.owned u hu)
    omega
  · obtain ⟨-, h1, h2⟩ := h.slot_place hx
    refine ⟨by omega, fun u hu => ?_⟩
    have h3 := h.aligned _ (h.apart.owned u hu)
    unfold header
    omega

theorem atSlab_take (hv : v ∈ vs) (hcur : load64 m (cacheSlabs cache) = header v.page) :
    AtSlab (takeBufctl m cache).2 cache := by
  refine atSlab_of_frame (X := Set.Ico (header v.page + 8) (header v.page + 24)) h
    (Or.inr ⟨v, hv, hcur⟩) ?_
    fun b hb => apart_of_list h (Or.inl ⟨v, hv, hb⟩)
  unfold takeBufctl
  rw [hcur]
  refine differsOn_store64 (differsOn_store64 (DiffersOn.refl _ _) fun b hb => ?_) fun b hb => ?_
  · simp only [slabFreeHead, Set.mem_Ico] at hb ⊢
    omega
  · simp only [slabCount, Set.mem_Ico] at hb ⊢
    omega

theorem atSlab_put (hv : v ∈ vs) (hcur : load64 m (cacheSlabs cache) = header v.page) (hp : ptr ∈ live) :
    AtSlab (putBufctl m cache ptr) cache := by
  have hsz := h.size_ge
  refine atSlab_of_frame
    (X := Set.Ico (header v.page + 8) (header v.page + 24) ∪ Set.Ico ptr (ptr + size)) h
    (Or.inr ⟨v, hv, hcur⟩) ?_ fun b hb => apart_of_list h (hb.imp (fun hb => ⟨v, hv, hb⟩)
      fun hb => ⟨ptr, h.live_slot hp, hb⟩)
  unfold putBufctl
  rw [hcur]
  refine differsOn_store64 (differsOn_store64 (differsOn_store64 (differsOn_store64 (DiffersOn.refl _ _)
    fun b hb => Or.inr ?_) fun b hb => Or.inr ?_) fun b hb => Or.inl ?_) fun b hb => Or.inl ?_
  · simp only [bufctlNext, Set.mem_Ico] at hb ⊢
    omega
  · simp only [bufctlPtr, Set.mem_Ico] at hb ⊢
    omega
  · simp only [slabFreeHead, Set.mem_Ico] at hb ⊢
    omega
  · simp only [slabCount, Set.mem_Ico] at hb ⊢
    omega

theorem atSlab_write (hat : AtSlab m cache) (hd : DiffersOn (liveBytes size live) m m') :
    AtSlab m' cache :=
  atSlab_of_frame h ((atSlab_iff h).mp hat) hd fun _ ⟨x, hx, hb⟩ =>
    apart_of_list h (Or.inr ⟨x, h.live_slot hx, hb⟩)

end Inv

/-! ### The calls -/

section Calls
variable (hL : Lawful A arena Good)
include hL

theorem atSlab_growLoop (pre : List View) (h : Owns Good s H size cache O (pre ++ v :: post) live)
    (hcur : load64 s.mem (cacheSlabs cache) = header v.page) (hok : growLoop A flags cache n s = .ok s') :
    AtSlab s'.mem cache := by
  induction n generalizing s H O pre v post with
  | zero =>
    cases hok
    exact (atSlab_iff h.inv).mpr (Or.inr ⟨v, by simp, hcur⟩)
  | succ n ih =>
    rcases createBufctl_spec hL h with ⟨s₁, hr, h₁, hs₁, -⟩ | ⟨p, s₁, hp0, hr, hpH, hnew, hz, hI, hs₁, hG⟩
    · rw [growLoop, hr] at hok
      simp only [if_true] at hok
      split_ifs at hok
      cases hok
      exact (atSlab_iff h₁.inv).mpr (Or.inr ⟨v, by
        simp, (cursor_samePages (hs₁.mono h.handed)).trans hcur⟩)
    · rw [growLoop_got hr hp0] at hok
      have hpo : p ∉ O := fun ho => hpH (h.handed (Set.mem_insert_of_mem _ ho))
      obtain ⟨hI₂, hcur₂, hd₂⟩ :=
        addSlab_after hI hnew hpo hz ((cursor_samePages (hs₁.mono h.handed)).trans hcur)
      obtain ⟨h₂, -⟩ := owns_addSlab hL hI hG rfl h.handed hpH hI₂
        (fun b hb => by rw [List.mem_singleton.mp hb]; simp) hd₂
      generalize addSlab s₁.mem cache p = M at hcur₂ h₂ hok
      exact ih _ h₂ hcur₂ hok

theorem atSlab_growLoop_first (h : Owns Good s H size cache O [] live)
    (hcur : load64 s.mem (cacheSlabs cache) = 0) (hok : growLoop A flags cache n s = .ok s') :
    AtSlab s'.mem cache := by
  cases n with
  | zero =>
    cases hok
    exact (atSlab_iff h.inv).mpr (Or.inl hcur)
  | succ n =>
    rcases createBufctl_spec hL h with ⟨s₁, hr, h₁, hs₁, -⟩ | ⟨p, s₁, hp0, hr, hpH, hnew, hz, hI, hs₁, hG⟩
    · rw [growLoop, hr] at hok
      simp only [if_true] at hok
      split_ifs at hok
      cases hok
      exact (atSlab_iff h₁.inv).mpr (Or.inl ((cursor_samePages (hs₁.mono h.handed)).trans hcur))
    · rw [growLoop_got hr hp0] at hok
      have hpo : p ∉ O := fun ho => hpH (h.handed (Set.mem_insert_of_mem _ ho))
      obtain ⟨hI₂, hcur₂, hd₂⟩ :=
        addSlab_first hI hnew hpo hz ((cursor_samePages (hs₁.mono h.handed)).trans hcur)
      obtain ⟨h₂, -⟩ := owns_addSlab hL hI hG rfl h.handed hpH hI₂ (by simp) hd₂
      generalize addSlab s₁.mem cache p = M at hcur₂ h₂ hok
      exact atSlab_growLoop hL [] h₂ hcur₂ hok

/-- **`slab_cache_grow`.** -/
theorem atSlab_grow (h : Owns Good s H size cache O vs live)
    (hok : slabCacheGrow A flags cache n s = .ok s') :
    AtSlab s'.mem cache := by
  obtain ⟨hI₁, hd₁, hcur₁⟩ := rewind h.inv
  obtain ⟨h₁, -⟩ := owns_write hL h hI₁ (X := ∅) (by simp) (hd₁.mono cursor_subset)
  rw [slabCacheGrow, if_neg h.inv.cache_ok.2.1] at hok
  cases vs with
  | cons v vs => exact atSlab_growLoop hL [] h₁ (chain_cons_iff.mp hcur₁).1 hok
  | nil => exact atSlab_growLoop_first hL h₁ (chain_nil_iff.mp hcur₁) hok

/-- **`slab_cache_alloc`.** -/
theorem atSlab_alloc {a : ℕ} (h : Owns Good s H size cache O vs live)
    (hok : slabCacheAlloc A flags cache fuel s = .ok (a, s')) : AtSlab s'.mem cache := by
  induction fuel generalizing s H O vs with
  | zero => cases hok
  | succ fuel ih =>
    obtain ⟨hI₁, hd₁, hcur₁⟩ := rewind h.inv
    rw [slabCacheAlloc, if_neg h.inv.cache_ok.2.1] at hok
    split at hok
    · cases hok
    · rename_i m₂ hseek
      obtain ⟨hd₂, hat₂⟩ := atView_seek hI₁ (fun _ h => h) hcur₁ hseek
      have hI₂ := of_cursor hI₁ hd₂
      have h₂ := (owns_write hL h hI₂ (X := ∅) (by simp) ((hd₁.trans hd₂).mono cursor_subset)).1
      split_ifs at hok with h0 hg hp
      · split at hok
        · cases hok
        · rename_i s₃ hgr
          obtain ⟨H₃, O₃, vs₃, h₃, -⟩ := grow_owns hL h₂ hgr
          exact ih h₃ hok
      · cases hok
        exact (atSlab_iff hI₂).mpr hat₂
      · obtain ⟨rfl, rfl⟩ := Prod.mk.inj (Except.ok.inj hok)
        obtain ⟨v, hv, hcur⟩ := hat₂.resolve_left h0
        exact atSlab_take hI₂ hv hcur

omit hL in
/-- **`slab_cache_free`** of a live buffer. -/
theorem atSlab_free (h : CacheInv s.mem size cache O vs live) (hp : ptr ∈ live)
    (hok : slabCacheFree flags cache ptr fuel s = .ok s') : AtSlab s'.mem cache := by
  obtain ⟨hI₁, -, hcur₁⟩ := rewind h
  rw [slabCacheFree, if_neg h.cache_ok.2.1] at hok
  split at hok
  · cases hok
  · rename_i m₂ hseek
    obtain ⟨hd₂, hat₂⟩ := atView_seek hI₁ (fun _ h => h) hcur₁ hseek
    have hI₂ := of_cursor hI₁ hd₂
    split_ifs at hok with h0
    · cases hok
      exact (atSlab_iff hI₂).mpr hat₂
    · cases hok
      obtain ⟨v, hv, hcur⟩ := hat₂.resolve_left h0
      exact atSlab_put hI₂ hv hcur hp

/-- **`slab_cache_reap`.** -/
theorem atSlab_reap {freed : List ℕ} (h : Owns Good s H size cache O vs live)
    (hok : slabCacheReap A flags cache fuel s = .ok (s', freed)) : AtSlab s'.mem cache := by
  have hO : insert cache O ⊆ arena := fun p hp => hL.handed h.good (h.handed hp)
  have hLG : ∀ x ∈ vs.map (fun v => header v.page), x / 4096 * 4096 ∈ H := fun x hx => by
    obtain ⟨v, hv, rfl⟩ := List.mem_map.mp hx
    have h1 := h.inv.apart.owned v hv
    have h2 := h.inv.aligned _ h1
    rw [show header v.page / 4096 * 4096 = v.page by unfold header; omega]
    exact h.handed (Set.mem_insert_of_mem _ h1)
  rcases reapList_spec hL.releases (ownPages_of_inv h.inv hO) flags fuel h.good hLG h.inv.rep.chain with
    ⟨t, hr, h'⟩ | ⟨-, hr⟩
  · rw [hr] at hok
    cases hok
    refine ⟨_, h'.list, ?_⟩
    rw [h'.rewound]
    exact h'.list.start_mem
  · rw [hr] at hok
    cases hok

/-- **`slab_cache_create`.** -/
theorem atSlab_create {name : ℕ} (hs : 16 ≤ size) (hG : Good s H) (hc : cache ≠ 0)
    (hnew : slabCacheCreate A flags name size s = .ok (cache, s')) : AtSlab s'.mem cache := by
  obtain ⟨hle, hpow⟩ := asserted hnew
  rw [slabCacheCreate_eq hle hpow] at hnew
  split_ifs at hnew with h0 hp
  · cases hnew
    exact absurd rfl hc
  · obtain ⟨hown, -⟩ := emptyCache_owns hL name hs hle hG h0
    split at hnew
    · cases hnew
    · rename_i s₂ hgr
      cases hnew
      exact atSlab_grow hL hown hgr

/-- **Every call of a run** leaves the cursor at a slab of the list, or at NULL. -/
theorem atSlab_step {home : Prop} {s s' : SlabState σ} {o : SlabOp} (h : Keeps Good size cache home s)
    (hat : AtSlab s.machine.mem cache) (hs : Step A size cache s o s') : AtSlab s'.machine.mem cache := by
  obtain ⟨H, O, vs, h, -⟩ := h
  obtain ⟨hv, fuel, hok⟩ := hs
  cases o with
  | alloc flags =>
    obtain ⟨⟨a, t⟩, hr, rfl⟩ := map_eq_ok hok
    exact atSlab_alloc hL h hr
  | free flags ptr =>
    obtain ⟨t, hr, rfl⟩ := map_eq_ok hok
    exact atSlab_free h.inv hv hr
  | grow flags count =>
    obtain ⟨t, hr, rfl⟩ := map_eq_ok hok
    exact atSlab_grow hL h hr
  | write m =>
    cases hok
    exact atSlab_write h.inv hat hv
  | reap flags =>
    obtain ⟨⟨t, freed⟩, hr, rfl⟩ := map_eq_ok hok
    exact atSlab_reap hL h hr

end Calls

end FusionCore.Mm.SlabCursor
