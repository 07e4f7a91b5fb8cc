import FusionCore.Mm.SlabLife

/-! # `slab_cache_reap`

The loop walks the slab list with `prev` behind the cursor. A slab with a full count is taken out of the
list and its page is freed; the loop goes on reading and writing the header of a page it has freed
when that was the first one.

`reapList_spec` says what it does to any list of slab records in pages of their own, whatever their counts
and free lists are; `Behind` is what the loop keeps of `prev`. For a cache of the invariant the slabs left
are those of `reapFull` (`reap_spec`). -/

namespace FusionCore.Mm.SlabReap

open FusionCore.Lib.ByteMem FusionCore.Lib.NullChain
open FusionCore.Mm.Defs FusionCore.Mm.Pages FusionCore.Mm.Slab FusionCore.Mm.SlabView
open FusionCore.Mm.SlabRep FusionCore.Mm.SlabOps FusionCore.Mm.SlabLife

variable {σ : Type} {A : PageSource σ} {arena : Set ℕ} {Good : Machine σ → Set ℕ → Prop}
  {s s' : Machine σ} {G O : Set ℕ} {m m' : Mem} {size cache x prev : ℕ} {L done post rest ps : List ℕ}

/-! ### Records in pages of their own -/

/-- **The records of a cache and of its slabs**, each in a page of its own. -/
structure OwnPages (arena : Set ℕ) (cache : ℕ) (slabs : List ℕ) : Prop where
  slab : ∀ h ∈ slabs, h / 4096 * 4096 ∈ arena ∧ h % 4096 + 32 ≤ 4096
  record : cache / 4096 * 4096 ∈ arena ∧ cache % 4096 + 40 ≤ 4096
  nodup : ((cache :: slabs).map fun h => h / 4096).Nodup

/-- The head of the list, the cursor, and the links of the slabs. -/
def linkBytes (cache : ℕ) (slabs : List ℕ) : Set ℕ :=
  {a | (cacheHead cache ≤ a ∧ a < cacheHead cache + 16) ∨ ∃ h ∈ slabs, h ≤ a ∧ a < h + 8}

theorem linkBytes_mono (h : ps ⊆ L) : linkBytes cache ps ⊆ linkBytes cache L := by
  rintro a (ha | ⟨x, hx, ha⟩)
  · exact Or.inl ha
  · exact Or.inr ⟨x, h hx, ha⟩

theorem cursor_subset_linkBytes : cursor cache ⊆ linkBytes cache L := fun a ha => by
  simp only [cursor, cacheSlabs, Set.mem_Ico] at ha
  exact Or.inl (by unfold cacheHead; omega)

section OwnPages
variable (h : OwnPages arena cache L)
include h

theorem OwnPages.mono {arena' : Set ℕ} (hs : arena ⊆ arena') : OwnPages arena' cache L :=
  ⟨fun x hx => ⟨hs (h.slab x hx).1, (h.slab x hx).2⟩, ⟨hs h.record.1, h.record.2⟩, h.nodup⟩

theorem OwnPages.nodup_slabs : L.Nodup := ((List.nodup_cons.mp h.nodup).2).of_map _

theorem OwnPages.apart {y : ℕ} (hx : x ∈ L) (hy : y ∈ L) (hne : x ≠ y) : x + 32 ≤ y ∨ y + 32 ≤ x := by
  have h1 := (h.slab x hx).2
  have h2 := (h.slab y hy).2
  have h3 : x / 4096 ≠ y / 4096 := fun he =>
    hne (List.inj_on_of_nodup_map (List.nodup_cons.mp h.nodup).2 hx hy he)
  omega

theorem OwnPages.off (hx : x ∈ L) : x + 32 ≤ cache ∨ cache + 40 ≤ x := by
  have h1 := (h.slab x hx).2
  have h2 := h.record.2
  have h3 : x / 4096 ≠ cache / 4096 := fun he =>
    (List.nodup_cons.mp h.nodup).1 (List.mem_map.mpr ⟨x, hx, he⟩)
  omega

theorem OwnPages.slab_word {k : ℕ} (hs : SameBut arena (linkBytes cache ps) m m') (hps : ps ⊆ L)
    (hx : x ∈ L) (hk : k ≤ 24) (hd : x ∉ ps ∨ 8 ≤ k) : load64 m' (x + k) = load64 m (x + k) := by
  have h1 := h.slab x hx
  refine hs.load64 h1.1 (by omega) fun b hb => ?_
  rcases hb with hb | ⟨y, hy, hb⟩
  · have h2 := h.off hx
    unfold cacheHead at hb
    omega
  · by_cases hxy : x = y
    · subst hxy
      have h3 := hd.resolve_left (not_not.mpr hy)
      omega
    · have h2 := h.apart hx (hps hy) hxy
      omega

theorem OwnPages.cache_word {k : ℕ} (hs : SameBut arena (linkBytes cache ps) m m') (hps : ps ⊆ L)
    (hk : k ≤ 16) : load64 m' (cache + k) = load64 m (cache + k) := by
  have h1 := h.record
  refine hs.load64 h1.1 (by omega) fun b hb => ?_
  rcases hb with hb | ⟨y, hy, hb⟩
  · unfold cacheHead at hb
    omega
  · have h2 := h.off (hps hy)
    omega

theorem OwnPages.head_word (hs : SameBut arena (cursor cache) m m') :
    load64 m' (cacheHead cache) = load64 m (cacheHead cache) := by
  have h1 := h.record
  refine hs.load64 h1.1 (by unfold cacheHead; omega) fun b hb => ?_
  simp only [cursor, cacheSlabs, Set.mem_Ico] at hb
  unfold cacheHead
  omega

theorem OwnPages.link_word (hs : SameBut arena (cursor cache) m m') (hx : x ∈ L) :
    load64 m' (slabNext x) = load64 m (slabNext x) := by
  have hs' : SameBut arena (linkBytes cache []) m m' := hs.mono cursor_subset_linkBytes
  exact h.slab_word (k := 0) hs' (List.nil_subset _) hx (by norm_num) (Or.inl (by simp))

theorem OwnPages.inArena (hps : ps ⊆ L) {a : ℕ} (ha : a ∈ linkBytes cache ps) :
    ∃ p ∈ arena, a ∈ page p := by
  rcases ha with ha | ⟨y, hy, ha⟩
  · have h1 := h.record
    exact ⟨_, h1.1, mem_page.mpr (by unfold cacheHead at ha; omega)⟩
  · have h1 := h.slab y (hps hy)
    exact ⟨_, h1.1, mem_page.mpr (by omega)⟩

theorem OwnPages.good (hR : Releases A arena Good) (hG : Good s G) (hps : ps ⊆ L)
    (hd : DiffersOn (linkBytes cache ps) s.mem m) : Good { s with mem := m } G :=
  hR.write hG fun a ha => hd a fun hb => by
    obtain ⟨p, hp, hap⟩ := h.inArena hps hb
    exact ha p hp hap

theorem OwnPages.cursor_good (hR : Releases A arena Good) (hG : Good s G)
    (hd : DiffersOn (cursor cache) s.mem m) : Good { s with mem := m } G := by
  have hd' : DiffersOn (linkBytes cache []) s.mem m := hd.mono cursor_subset_linkBytes
  exact h.good hR hG (List.nil_subset _) hd'

end OwnPages

/-! ### Taking a slab out of the list -/

/-- The chain of the slab links. -/
abbrev Slabs (m : Mem) : ℕ → List ℕ → Prop := Chain fun a => load64 m (slabNext a)

/-- `prev` is behind a cursor at the first slab of `rest`, with the slabs `done` kept: it is the last of
them, or, with none kept, a slab whose link no slab after the cursor is reached by. -/
def Behind (L : List ℕ) (prev : ℕ) (done rest : List ℕ) : Prop :=
  rest = [] ∨ prev ∈ L ∧ ((done = [] ∧ prev ∉ rest.tail) ∨ ∃ d, done = d ++ [prev])

/-- The writes that take the slab `slab` out of the list. -/
def unlink (m : Mem) (cache prev slab : ℕ) : Mem :=
  let m := if slab = load64 m (cacheHead cache) then
    store64 m (cacheHead cache) (load64 m (slabNext slab)) else m
  store64 m (slabNext prev) (load64 m (slabNext slab))

section Unlink
variable (h : OwnPages arena cache L) (hsub : (done ++ x :: post).Sublist L) (hprev : prev ∈ L)
  (hb : (done = [] ∧ prev ∉ post) ∨ ∃ d, done = d ++ [prev])
include h hsub hb

theorem prev_not_after : prev ∉ post := by
  rcases hb with ⟨-, hb⟩ | ⟨d, rfl⟩
  · exact hb
  · have hnd := h.nodup_slabs.sublist hsub
    exact fun hp => (List.nodup_append.mp hnd).2.2 prev (by simp) prev (by simp [hp]) rfl

include hprev

/-- **A slab is taken out of the list.** -/
theorem unlink_spec (hlist : Slabs m (load64 m (cacheHead cache)) (done ++ x :: post)) :
    Slabs (unlink m cache prev x) (load64 (unlink m cache prev x) (cacheHead cache)) (done ++ post) ∧
      DiffersOn (linkBytes cache [prev]) m (unlink m cache prev x) ∧
      load64 (unlink m cache prev x) (slabNext prev) = load64 m (slabNext x) := by
  have hx : x ∈ L := hsub.subset (by simp)
  have hoff := h.off hprev
  have hoffx := h.off hx
  have hafter := prev_not_after h hsub hb
  have hhead : Set.Ico (cacheHead cache) (cacheHead cache + 8) ⊆ linkBytes cache [prev] := fun a ha =>
    Or.inl (by simp only [Set.mem_Ico] at ha; omega)
  have hlink : Set.Ico (slabNext prev) (slabNext prev + 8) ⊆ linkBytes cache [prev] := fun a ha =>
    Or.inr ⟨prev, by simp, ha⟩
  rcases hb with ⟨rfl, -⟩ | ⟨d, rfl⟩
  · -- the first slab: the head moves on
    obtain ⟨hx₀, -, hpost⟩ := chain_cons_iff.mp hlist
    have hnext : load64 (store64 m (cacheHead cache) (load64 m (slabNext x))) (slabNext x) =
        load64 m (slabNext x) :=
      load64_store64_of_disjoint (by unfold cacheHead slabNext; omega)
    unfold unlink
    dsimp only
    rw [if_pos hx₀.symm, hnext]
    set m₂ := store64 (store64 m (cacheHead cache) (load64 m (slabNext x))) (slabNext prev)
      (load64 m (slabNext x)) with hm₂
    have hd : DiffersOn (linkBytes cache [prev]) m m₂ :=
      differsOn_store64 (differsOn_store64 (DiffersOn.refl _ _) hhead) hlink
    have hh : load64 m₂ (cacheHead cache) = load64 m (slabNext x) := by
      rw [hm₂, load64_store64_of_disjoint (by unfold cacheHead slabNext; omega),
        load64_store64 (load64_lt _ _)]
    refine ⟨?_, hd, load64_store64 (load64_lt _ _)⟩
    rw [hh]
    rw [hx₀] at hpost
    refine hpost.congr fun y hy => ?_
    refine h.slab_word (k := 0) (sameBut_of_differsOn hd) (by simpa using hprev)
      (hsub.subset (by simp [hy]))
      (by norm_num) (Or.inl fun he => hafter ?_)
    rwa [← List.mem_singleton.mp he]
  · -- a later slab: the link behind it moves on
    have hnd := h.nodup_slabs.sublist hsub
    have hne : x ≠ load64 m (cacheHead cache) := by
      have hmem : load64 m (cacheHead cache) ∈ d ++ [prev] := by
        rw [hlist.head_eq]
        cases d with
        | nil => simp
        | cons w d => simp
      exact fun he => (List.nodup_append.mp hnd).2.2 _ hmem x (by simp) he.symm
    unfold unlink
    dsimp only
    rw [if_neg hne]
    set m₂ := store64 m (slabNext prev) (load64 m (slabNext x)) with hm₂
    have hd : DiffersOn (linkBytes cache [prev]) m m₂ := differsOn_store64 (DiffersOn.refl _ _) hlink
    have hh : load64 m₂ (cacheHead cache) = load64 m (cacheHead cache) :=
      load64_store64_of_disjoint (by unfold cacheHead slabNext; omega)
    have hn : load64 m₂ (slabNext prev) = load64 m (slabNext x) := load64_store64 (load64_lt _ _)
    refine ⟨?_, hd, hn⟩
    rw [hh]
    rw [List.append_assoc] at hlist hnd ⊢
    refine hlist.unlink hn fun y hy => ?_
    have hyL : y ∈ L := hsub.subset (by
      rcases List.mem_append.mp hy with hy | hy <;> simp [hy])
    refine h.slab_word (k := 0) (sameBut_of_differsOn hd) (by simpa using hprev) hyL (by norm_num)
      (Or.inl fun he => ?_)
    rw [List.mem_singleton.mp he] at hy
    rcases List.mem_append.mp hy with hy | hy
    · exact (List.nodup_append.mp hnd).2.2 _ hy prev (by simp) rfl
    · exact hafter hy

end Unlink

/-! ### The loop -/

/-- The machine after an iteration at a slab with a full count. -/
def dropSlab (A : PageSource σ) (cache prev slab : ℕ) (s : Machine σ) : Machine σ :=
  let s' := A.free { s with mem := unlink s.mem cache prev slab } slab
  { s' with mem := store64 s'.mem (cacheSlabs cache) (load64 s'.mem (slabNext prev)) }

/-- The slab counts all its buffers as free. -/
def isFull (m : Mem) (cache slab : ℕ) : Bool :=
  decide (load64 m (slabCount slab) = load64 m (cacheMax cache))

theorem reapLoop_end {fuel : ℕ} (h0 : load64 s.mem (cacheSlabs cache) = 0) :
    reapLoop A cache (fuel + 1) prev s =
      .ok ({ s with mem := store64 s.mem (cacheSlabs cache) (load64 s.mem (cacheHead cache)) }, []) := by
  rw [reapLoop]
  exact if_pos h0

theorem reapLoop_full {fuel slab : ℕ} (hcur : load64 s.mem (cacheSlabs cache) = slab) (h0 : slab ≠ 0)
    (hfull : isFull s.mem cache slab = true) :
    reapLoop A cache (fuel + 1) prev s =
      match reapLoop A cache fuel prev (dropSlab A cache prev slab s) with
      | .error e => .error e
      | .ok (s', freed) => .ok (s', slab :: freed) := by
  rw [reapLoop, hcur]
  dsimp only
  rw [if_neg h0, if_pos (of_decide_eq_true hfull)]
  rfl

theorem reapLoop_kept {fuel slab : ℕ} (hcur : load64 s.mem (cacheSlabs cache) = slab) (h0 : slab ≠ 0)
    (hfull : isFull s.mem cache slab = false) :
    reapLoop A cache (fuel + 1) prev s = reapLoop A cache fuel slab
      { s with mem := store64 s.mem (cacheSlabs cache) (load64 s.mem (slabNext slab)) } := by
  rw [reapLoop, hcur]
  dsimp only
  rw [if_neg h0, if_neg (of_decide_eq_false hfull)]

theorem OwnPages.isFull_eq (h : OwnPages arena cache L) (hs : SameBut arena (linkBytes cache L) m m')
    (hx : x ∈ L) : isFull m' cache x = isFull m cache x := by
  unfold isFull slabCount cacheMax
  rw [h.slab_word hs (fun _ h => h) hx (by norm_num) (Or.inr (by norm_num)),
    h.cache_word hs (fun _ h => h) (by norm_num)]

theorem OwnPages.filter_isFull (h : OwnPages arena cache L) (hs : SameBut arena (linkBytes cache L) m m')
    (hl : rest ⊆ L) : rest.filter (isFull m' cache) = rest.filter (isFull m cache) ∧
      (rest.filter fun x => !isFull m' cache x) = rest.filter fun x => !isFull m cache x := by
  constructor
  · exact List.filter_congr fun x hx => h.isFull_eq hs (hl hx)
  · exact List.filter_congr fun x hx => by rw [h.isFull_eq hs (hl hx)]

/-- **What is left** of the slabs `kept` when the pages of the slabs `dropped` have been freed. -/
structure Reaped (arena : Set ℕ) (Good : Machine σ → Set ℕ → Prop) (cache : ℕ) (L kept dropped : List ℕ)
    (s s' : Machine σ) (G : Set ℕ) : Prop where
  list : Slabs s'.mem (load64 s'.mem (cacheHead cache)) kept
  rewound : load64 s'.mem (cacheSlabs cache) = load64 s'.mem (cacheHead cache)
  same : SameBut arena (linkBytes cache L) s.mem s'.mem
  good : Good s' (G \ {p | ∃ x ∈ dropped, p = x / 4096 * 4096})

section Reaped
variable {s₁ : Machine σ} {kept dropped : List ℕ}

theorem Reaped.after (hs : SameBut arena (linkBytes cache L) s.mem s₁.mem)
    (h : Reaped arena Good cache L kept dropped s₁ s' G) :
      Reaped arena Good cache L kept dropped s s' G :=
  ⟨h.list, h.rewound, hs.trans h.same, h.good⟩

theorem Reaped.after_free (hs : SameBut arena (linkBytes cache L) s.mem s₁.mem)
    (h : Reaped arena Good cache L kept dropped s₁ s' (G \ {x / 4096 * 4096})) :
    Reaped arena Good cache L kept (x :: dropped) s s' G := by
  refine ⟨h.list, h.rewound, hs.trans h.same, ?_⟩
  have hG := h.good
  rw [Set.sdiff_sdiff] at hG
  convert hG using 2
  ext p
  simp

end Reaped

section Loop
variable (hR : Releases A arena Good) (h : OwnPages arena cache L)
include hR h

/-- **The cursor goes to the head.** -/
theorem toHead_spec (hsub : rest ⊆ L) (hG : Good s G)
    (hlist : Slabs s.mem (load64 s.mem (cacheHead cache)) rest) :
    let m₁ := store64 s.mem (cacheSlabs cache) (load64 s.mem (cacheHead cache))
    Slabs m₁ (load64 m₁ (cacheHead cache)) rest ∧
      load64 m₁ (cacheSlabs cache) = load64 m₁ (cacheHead cache) ∧ SameBut arena (cursor cache) s.mem m₁ ∧
      Good { s with mem := m₁ } G := by
  intro m₁
  have hd : DiffersOn (cursor cache) s.mem m₁ := differsOn_store64 (DiffersOn.refl _ _) fun _ h => h
  have hs : SameBut arena (cursor cache) s.mem m₁ := sameBut_of_differsOn hd
  have hhead := h.head_word hs
  refine ⟨?_, (load64_store64 (load64_lt _ _)).trans hhead.symm, hs, h.cursor_good hR hG hd⟩
  rw [hhead]
  exact hlist.congr fun y hy => h.link_word hs (hsub hy)

/-- **A slab with a full count**: it leaves the list, its page is freed, and the cursor goes on. -/
theorem dropSlab_spec (hsub : (done ++ x :: post).Sublist L) (hprev : prev ∈ L)
    (hb : (done = [] ∧ prev ∉ post) ∨ ∃ d, done = d ++ [prev]) (hG : Good s G) (hx : x / 4096 * 4096 ∈ G)
    (hlist : Slabs s.mem (load64 s.mem (cacheHead cache)) (done ++ x :: post))
    (hcur : Slabs s.mem (load64 s.mem (cacheSlabs cache)) (x :: post)) :
    Slabs (dropSlab A cache prev x s).mem (load64 (dropSlab A cache prev x s).mem (cacheHead cache))
        (done ++ post) ∧
      Slabs (dropSlab A cache prev x s).mem (load64 (dropSlab A cache prev x s).mem
        (cacheSlabs cache)) post ∧
      SameBut arena (linkBytes cache [prev]) s.mem (dropSlab A cache prev x s).mem ∧
      Good (dropSlab A cache prev x s) (G \ {x / 4096 * 4096}) := by
  have hps : [prev] ⊆ L := by simpa using hprev
  obtain ⟨hlist₁, hd₁, hlink⟩ := unlink_spec h hsub hprev hb hlist
  obtain ⟨hsame, hG₂⟩ := hR.free (h.good hR hG hps hd₁) hx (q := x) (mem_page.mpr (by omega))
  -- the link is read from a page that may have been freed
  have hword := h.link_word (sameBut_of_samePages hsame) hprev
  unfold dropSlab
  generalize A.free { s with mem := unlink s.mem cache prev x } x = s₂ at hsame hG₂ hword ⊢
  dsimp only at hsame hword ⊢
  rw [show load64 s₂.mem (slabNext prev) = load64 s.mem (slabNext x) from hword.trans hlink]
  set m₃ := store64 s₂.mem (cacheSlabs cache) (load64 s.mem (slabNext x)) with hm₃
  have hd₃ : DiffersOn (cursor cache) s₂.mem m₃ := differsOn_store64 (DiffersOn.refl _ _) fun _ h => h
  have hs₃ : SameBut arena (cursor cache) (unlink s.mem cache prev x) m₃ :=
    (sameBut_of_samePages hsame).trans (sameBut_of_differsOn hd₃)
  have hsame₃ : SameBut arena (linkBytes cache [prev]) s.mem m₃ :=
    (sameBut_of_differsOn hd₁).trans (hs₃.mono cursor_subset_linkBytes)
  refine ⟨?_, ?_, hsame₃, h.cursor_good hR hG₂ hd₃⟩
  · rw [h.head_word hs₃]
    refine hlist₁.congr fun y hy => ?_
    have hyL : y ∈ L := hsub.subset (by
      rcases List.mem_append.mp hy with hy | hy <;> simp [hy])
    exact h.link_word hs₃ hyL
  · obtain ⟨hx₀, -, hpost⟩ := chain_cons_iff.mp hcur
    rw [hm₃, load64_store64 (load64_lt _ _), ← hm₃]
    rw [hx₀] at hpost
    refine hpost.congr fun y hy => ?_
    refine h.slab_word (k := 0) hsame₃ hps (hsub.subset (by simp [hy])) (by norm_num)
      (Or.inl fun he => ?_)
    exact prev_not_after h hsub hb (by rwa [← List.mem_singleton.mp he])

/-- **A slab with buffers in use** stays, and the cursor goes on. -/
theorem keepSlab_spec (hsub : (done ++ x :: post).Sublist L) (hG : Good s G)
    (hlist : Slabs s.mem (load64 s.mem (cacheHead cache)) (done ++ x :: post))
    (hcur : Slabs s.mem (load64 s.mem (cacheSlabs cache)) (x :: post)) :
    let m₁ := store64 s.mem (cacheSlabs cache) (load64 s.mem (slabNext x))
    Slabs m₁ (load64 m₁ (cacheHead cache)) (done ++ x :: post) ∧
      Slabs m₁ (load64 m₁ (cacheSlabs cache)) post ∧ SameBut arena (cursor cache) s.mem m₁ ∧
      Good { s with mem := m₁ } G := by
  intro m₁
  have hd : DiffersOn (cursor cache) s.mem m₁ := differsOn_store64 (DiffersOn.refl _ _) fun _ h => h
  have hs : SameBut arena (cursor cache) s.mem m₁ := sameBut_of_differsOn hd
  have hword : ∀ y ∈ done ++ x :: post, load64 m₁ (slabNext y) = load64 s.mem (slabNext y) := fun y hy =>
    h.link_word hs (hsub.subset hy)
  refine ⟨?_, ?_, hs, h.cursor_good hR hG hd⟩
  · rw [h.head_word hs]
    exact hlist.congr hword
  · obtain ⟨hx₀, -, hpost⟩ := chain_cons_iff.mp hcur
    rw [show load64 m₁ (cacheSlabs cache) = load64 s.mem (slabNext x) from load64_store64 (load64_lt _ _)]
    rw [hx₀] at hpost
    exact hpost.congr fun y hy => hword y (by simp [hy])

/-- **The loop of `slab_cache_reap`** with the slabs `done` behind the cursor and `rest` from it on. -/
theorem reapLoop_spec (fuel : ℕ) (done : List ℕ) (hsub : (done ++ rest).Sublist L)
    (hb : Behind L prev done rest) (hG : Good s G) (hrest : ∀ x ∈ rest, x / 4096 * 4096 ∈ G)
    (hlist : Slabs s.mem (load64 s.mem (cacheHead cache)) (done ++ rest))
    (hcur : Slabs s.mem (load64 s.mem (cacheSlabs cache)) rest) :
    (∃ s', reapLoop A cache fuel prev s = .ok (s', rest.filter (isFull s.mem cache)) ∧
      Reaped arena Good cache L (done ++ rest.filter fun x => !isFull s.mem cache x)
        (rest.filter (isFull s.mem cache)) s s' G) ∨
    fuel ≤ rest.length ∧ reapLoop A cache fuel prev s = .error .outOfFuel := by
  induction rest generalizing fuel prev done s G with
  | nil =>
    cases fuel with
    | zero => exact Or.inr ⟨le_rfl, rfl⟩
    | succ fuel =>
      obtain ⟨hlist₁, hhead, hs, hG₁⟩ := toHead_spec hR h hsub.subset hG hlist
      refine Or.inl ⟨_, reapLoop_end (chain_nil_iff.mp hcur), hlist₁, hhead,
        hs.mono cursor_subset_linkBytes, ?_⟩
      have hnone : {p | ∃ x ∈ ([] : List ℕ), p = x / 4096 * 4096} = ∅ := by simp
      rwa [List.filter_nil, hnone, Set.sdiff_empty]
  | cons x post ih =>
    cases fuel with
    | zero => exact Or.inr ⟨Nat.zero_le _, rfl⟩
    | succ fuel =>
      obtain ⟨hhead, h0, -⟩ := chain_cons_iff.mp hcur
      rw [hhead] at h0
      have hxL : x ∈ L := hsub.subset (by simp)
      have hnd := h.nodup_slabs.sublist hsub
      have hpostL : post ⊆ L := fun y hy => hsub.subset (by simp [hy])
      cases hfull : isFull s.mem cache x with
      | true =>
        -- the slab is dropped
        rw [reapLoop_full hhead h0 hfull]
        obtain hb | ⟨hprev, hb⟩ := hb
        · cases hb
        have hps : [prev] ⊆ L := by simpa using hprev
        obtain ⟨hlist₁, hcur₁, hs₁, hG₁⟩ :=
          dropSlab_spec hR h hsub hprev hb hG (hrest x (by simp)) hlist hcur
        generalize dropSlab A cache prev x s = s₁ at hlist₁ hcur₁ hs₁ hG₁ ⊢
        have hs₁ := hs₁.mono (linkBytes_mono hps)
        have hsub₁ : (done ++ post).Sublist L :=
          ((List.sublist_cons_self x post).append_left done).trans hsub
        have hb₁ : Behind L prev done post :=
          Or.inr ⟨hprev, hb.imp_left fun hb => ⟨hb.1, fun hp => hb.2 (List.mem_of_mem_tail hp)⟩⟩
        have hrest₁ : ∀ y ∈ post, y / 4096 * 4096 ∈ G \ {x / 4096 * 4096} := by
          refine fun y hy => ⟨hrest y (List.mem_cons_of_mem _ hy), fun he => ?_⟩
          have hxy : y = x := List.inj_on_of_nodup_map (List.nodup_cons.mp h.nodup).2
            (hsub.subset (by simp [hy])) hxL (by have := Set.mem_singleton_iff.mp he; omega)
          rw [hxy] at hy
          exact (List.nodup_cons.mp (List.nodup_append.mp hnd).2.1).1 hy
        obtain ⟨hdropped, hkept⟩ := h.filter_isFull hs₁ hpostL
        rcases ih fuel done hsub₁ hb₁ hG₁ hrest₁ hlist₁ hcur₁ with ⟨s', hr, h'⟩ | ⟨hle, hr⟩
        · rw [hdropped] at hr
          rw [hdropped, hkept] at h'
          refine Or.inl ⟨s', by rw [hr]; simp [hfull], ?_⟩
          simpa [hfull] using h'.after_free hs₁
        · exact Or.inr ⟨Nat.succ_le_succ hle, by rw [hr]⟩
      | false =>
        -- the slab stays
        rw [reapLoop_kept hhead h0 hfull]
        obtain ⟨hlist₁, hcur₁, hs₁, hG₁⟩ := keepSlab_spec hR h hsub hG hlist hcur
        generalize store64 s.mem (cacheSlabs cache) (load64 s.mem (slabNext x)) =
          m₁ at hlist₁ hcur₁ hs₁ hG₁ ⊢
        have hs₁ : SameBut arena (linkBytes cache L) s.mem m₁ := hs₁.mono cursor_subset_linkBytes
        have hb₁ : Behind L x (done ++ [x]) post := Or.inr ⟨hxL, Or.inr ⟨done, rfl⟩⟩
        have happ : done ++ [x] ++ post = done ++ x :: post := by simp
        obtain ⟨hdropped, hkept⟩ := h.filter_isFull hs₁ hpostL
        rcases ih (s := { s with mem := m₁ }) fuel (done ++ [x]) (by rw [happ]; exact hsub) hb₁ hG₁
          (fun y hy => hrest y (List.mem_cons_of_mem _ hy)) (by rw [happ]; exact hlist₁) hcur₁ with
          ⟨s', hr, h'⟩ | ⟨hle, hr⟩
        · dsimp only at hr h'
          rw [hdropped] at hr
          rw [hdropped, hkept] at h'
          refine Or.inl ⟨s', by rw [hr]; simp [hfull], ?_⟩
          simpa [hfull] using h'.after hs₁
        · exact Or.inr ⟨Nat.succ_le_succ hle, hr⟩

/-- **`slab_cache_reap`** drops the slabs with a full count from the list and frees their pages. -/
theorem reapList_spec (flags : SlabFlags) (fuel : ℕ) (hG : Good s G) (hLG : ∀ x ∈ L, x / 4096 * 4096 ∈ G)
    (hlist : Slabs s.mem (load64 s.mem (cacheHead cache)) L) :
    (∃ s', slabCacheReap A flags cache fuel s = .ok (s', L.filter (isFull s.mem cache)) ∧
      Reaped arena Good cache L (L.filter fun x => !isFull s.mem cache x)
        (L.filter (isFull s.mem cache)) s s' G) ∨
    fuel ≤ L.length ∧ slabCacheReap A flags cache fuel s = .error .outOfFuel := by
  have hc0 : cache ≠ 0 := by
    rintro rfl
    exact (hR.pages h.record.1).2.1 rfl
  obtain ⟨hlist₁, hcur, hs₁, hG₁⟩ := toHead_spec hR h (fun _ hx => hx) hG hlist
  have hb : Behind L (load64 s.mem (cacheHead cache)) [] L := by
    cases L with
    | nil => exact Or.inl rfl
    | cons x post =>
      obtain ⟨hx, -, -⟩ := chain_cons_iff.mp hlist
      rw [hx]
      exact Or.inr ⟨by simp, Or.inl ⟨rfl, (List.nodup_cons.mp h.nodup_slabs).1⟩⟩
  unfold slabCacheReap
  rw [if_neg hc0]
  dsimp only
  generalize store64 s.mem (cacheSlabs cache) (load64 s.mem (cacheHead cache)) =
    m₁ at hlist₁ hcur hs₁ hG₁ ⊢
  have hs₁ : SameBut arena (linkBytes cache L) s.mem m₁ := hs₁.mono cursor_subset_linkBytes
  obtain ⟨hdropped, hkept⟩ := h.filter_isFull hs₁ fun _ hx => hx
  have hspec := reapLoop_spec hR h (s := { s with mem := m₁ }) fuel [] (List.Sublist.refl _) hb
    hG₁ hLG hlist₁ (by rwa [hcur])
  dsimp only at hspec
  rw [hdropped, hkept] at hspec
  rcases hspec with ⟨s', hr, h'⟩ | hr
  · exact Or.inl ⟨s', hr, h'.after hs₁⟩
  · exact Or.inr hr

end Loop

/-! ### Caches of the invariant -/

section Cache
variable {vs us : List View} {live : List ℕ}

theorem ownPages_of_inv (h : CacheInv m size cache O vs live) (hO : insert cache O ⊆ arena) :
    OwnPages arena cache (vs.map fun v => header v.page) := by
  have hc := h.cache_ok
  refine ⟨fun x hx => ?_, ⟨?_, by omega⟩, ?_⟩
  · obtain ⟨v, hv, rfl⟩ := List.mem_map.mp hx
    have hvO := h.apart.owned v hv
    have hv4 := h.aligned _ hvO
    have hpage : header v.page / 4096 * 4096 = v.page := by unfold header; omega
    exact ⟨by rw [hpage]; exact hO (Set.mem_insert_of_mem _ hvO), by unfold header; omega⟩
  · rw [show cache / 4096 * 4096 = cache by omega]
    exact hO (Set.mem_insert _ _)
  · rw [List.map_cons, List.map_map, List.nodup_cons]
    refine ⟨fun hm => ?_, ?_⟩
    · obtain ⟨v, hv, he⟩ := List.mem_map.mp hm
      have hvO := h.apart.owned v hv
      have hv4 := h.aligned _ hvO
      have hpage : v.page = cache := by simp only [Function.comp_apply, header] at he; omega
      exact h.cache_new (hpage ▸ hvO)
    · refine (List.nodup_map_iff_inj_on (h.apart.pages.of_map _)).mpr fun u hu v hv he => ?_
      have hu4 := h.aligned _ (h.apart.owned u hu)
      have hv4 := h.aligned _ (h.apart.owned v hv)
      simp only [Function.comp_apply, header] at he
      exact List.inj_on_of_nodup_map h.apart.pages hu hv (by omega)

theorem isFull_header {v : View} (h : CacheInv m size cache O vs live) (hv : v ∈ vs) :
    isFull m cache (header v.page) = decide (v.free.length = cap size) := by
  unfold isFull
  rw [h.rep.count v hv, h.rep.max_eq]

theorem apart_sublist (h : Apart size O vs live) (hs : us.Sublist vs) : Apart size O us live := by
  have hn : (nodes us).Sublist (nodes vs) := hs.flatMap _
  exact ⟨h.nodup.sublist (hn.append_right live), fun a ha => h.slots a ((hn.append_right live).subset ha),
    h.pages.sublist (hs.map _), fun u hu => h.owned u (hs.subset hu), fun u hu =>
      h.count u (hs.subset hu)⟩

/-- **The list is linked anew** over some of its slabs. -/
theorem inv_relink (h : CacheInv m size cache O vs live) (hO : insert cache O ⊆ arena)
    (hsub : us.Sublist vs)
    (hs : SameBut arena (linkBytes cache (vs.map fun v => header v.page)) m m')
    (hc : Slabs m' (load64 m' (cacheHead cache)) (us.map fun u => header u.page)) :
    CacheInv m' size cache O us live := by
  have hown := ownPages_of_inv h hO
  have hword : ∀ u ∈ us, ∀ k, 8 ≤ k → k ≤ 24 →
      load64 m' (header u.page + k) = load64 m (header u.page + k) := fun u hu k h8 hk =>
    hown.slab_word hs (fun _ h => h) (List.mem_map_of_mem (hsub.subset hu)) hk (Or.inr h8)
  refine ⟨⟨(hown.cache_word hs (fun _ h => h) (by norm_num)).trans h.rep.size_eq,
    (hown.cache_word hs (fun _ h => h) (by norm_num)).trans h.rep.max_eq, hc, fun u hu =>
      ?_, fun u hu => ?_⟩,
    apart_sublist h.apart hsub, h.pages, h.cache_new, h.size_ge, h.size_le⟩
  · exact (hword u hu 8 le_rfl (by norm_num)).trans (h.rep.count u (hsub.subset hu))
  · rw [show load64 m' (slabFreeHead (header u.page)) = load64 m (slabFreeHead (header u.page)) from
      hword u hu 16 (by norm_num) (by norm_num)]
    refine (h.rep.free u (hsub.subset hu)).congr fun a ha => ?_
    obtain ⟨h1, h2, h3⟩ := h.slot_place (h.node_slot (mem_nodes.mpr ⟨u, hsub.subset hu, ha⟩))
    have h4 := h.size_ge
    refine hs.load64 (hO (Set.mem_insert_of_mem _ h1)) (by unfold bufctlNext; omega) fun b hb => ?_
    unfold bufctlNext
    rcases hb with hb | ⟨x, hx, hb⟩
    · have h5 := h.cache_ok
      unfold cacheHead at hb
      omega
    · obtain ⟨v, hv, rfl⟩ := List.mem_map.mp hx
      have h5 := h.aligned _ (h.apart.owned v hv)
      unfold header at hb
      omega

theorem good_cursor (hL : Lawful A arena Good) (hG : Good s G) (hc : cache ∈ arena)
    (hd : DiffersOn (cursor cache) s.mem m) : Good { s with mem := m } G := by
  refine hL.write hG fun a ha => hd a fun hb => ha cache hc ?_
  simp only [cursor, cacheSlabs, Set.mem_Ico, mem_page] at hb ⊢
  omega

/-- **`slab_cache_reap`** drops the slabs with all buffers free and frees their pages. -/
theorem reap_spec (hL : Lawful A arena Good) (flags : SlabFlags) (fuel : ℕ)
    (h : Owns Good s G size cache O vs live) :
    (∃ s', slabCacheReap A flags cache fuel s =
        .ok (s', (vs.filter fun v => v.free.length = cap size).map fun v => header v.page) ∧
      CacheInv s'.mem size cache O (reapFull (cap size) vs) live ∧
      Good s' (G \ {p | ∃ v ∈ vs, v.free.length = cap size ∧ p = v.page})) ∨
    fuel ≤ vs.length ∧ slabCacheReap A flags cache fuel s = .error .outOfFuel := by
  have hO : insert cache O ⊆ arena := fun p hp => hL.handed h.good (h.handed hp)
  have hpage : ∀ v ∈ vs, header v.page / 4096 * 4096 = v.page := fun v hv => by
    have := h.inv.aligned _ (h.inv.apart.owned v hv)
    unfold header
    omega
  have hLG : ∀ x ∈ vs.map (fun v => header v.page), x / 4096 * 4096 ∈ G := fun x hx => by
    obtain ⟨v, hv, rfl⟩ := List.mem_map.mp hx
    rw [hpage v hv]
    exact h.handed (Set.mem_insert_of_mem _ (h.inv.apart.owned v hv))
  have hfull : (vs.map fun v => header v.page).filter (isFull s.mem cache) =
      (vs.filter fun v => v.free.length = cap size).map fun v => header v.page := by
    rw [List.filter_map]
    refine congrArg _ (List.filter_congr fun v hv => ?_)
    rw [Function.comp_apply, isFull_header h.inv hv]
  have hkept : (vs.map fun v => header v.page).filter (fun x => !isFull s.mem cache x) =
      (reapFull (cap size) vs).map fun v => header v.page := by
    rw [List.filter_map]
    refine congrArg _ (List.filter_congr fun v hv => ?_)
    rw [Function.comp_apply, isFull_header h.inv hv, decide_not]
  have hspec := reapList_spec hL.releases (ownPages_of_inv h.inv hO) flags fuel h.good hLG h.inv.rep.chain
  rw [hfull, hkept, List.length_map] at hspec
  refine hspec.imp_left fun ⟨s', hr, h'⟩ => ⟨s', hr, ?_, ?_⟩
  · exact inv_relink h.inv hO List.filter_sublist h'.same h'.list
  · have hG' := h'.good
    convert hG' using 2
    ext p
    constructor
    · rintro ⟨v, hv, hc, rfl⟩
      exact ⟨_, List.mem_map_of_mem (List.mem_filter.mpr ⟨hv, by simpa using hc⟩), (hpage v hv).symm⟩
    · rintro ⟨x, hx, rfl⟩
      obtain ⟨v, hv, rfl⟩ := List.mem_map.mp hx
      obtain ⟨hv, hc⟩ := List.mem_filter.mp hv
      exact ⟨v, hv, by simpa using hc, hpage v hv⟩

end Cache

end FusionCore.Mm.SlabReap
