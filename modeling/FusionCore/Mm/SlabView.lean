import Mathlib.Tactic

/-! # Caches as lists of slabs

The abstract cache: the slabs from `slabs_head` on, each with its page and its free buffers in the
order of the free list. A page is cut into `cap size` buffers of `size` bytes. `takeFirst`,
`putFirst`, `growBy` and `reapFull` are what the operations of the allocator do to the list.

`Apart`: the free and the live buffers are different buffers of the pages the cache owns. It is kept by
every operation but the last. `Local`: the free buffers of a slab are buffers of its own page. It is
kept by releasing a buffer exactly if `putFirst` finds the slab of its page; as long as it holds, a
slab with a full count has no live buffer in its page (`full_page_free`). -/

namespace FusionCore.Mm.SlabView

/-- A slab: its page and its free buffers. -/
structure View where
  page : ℕ
  free : List ℕ
  deriving DecidableEq, Repr

/-- `bufctl_count_max` for buffers of `size` bytes. -/
def cap (size : ℕ) : ℕ := (4096 - 40) / size

/-- Buffer `j` of the page `p`. -/
def slot (size p j : ℕ) : ℕ := p + size * j

/-- `a` is a buffer of a page of `owned`. -/
def IsSlot (size : ℕ) (owned : Set ℕ) (a : ℕ) : Prop := ∃ p ∈ owned, ∃ j < cap size, a = slot size p j

/-- All free buffers. -/
def nodes (vs : List View) : List ℕ := vs.flatMap View.free

/-! ### Operations -/

/-- Take the first buffer of the first slab that has one. -/
def takeFirst : List View → Option (ℕ × List View)
  | [] => none
  | v :: vs =>
    match v.free with
    | [] => (takeFirst vs).map fun r => (r.1, v :: r.2)
    | a :: l => some (a, ⟨v.page, l⟩ :: vs)

/-- Put a buffer on the first slab with fewer than `c` free ones. -/
def putFirst (c a : ℕ) : List View → Option (List View)
  | [] => none
  | v :: vs =>
    if v.free.length < c then some (⟨v.page, a :: v.free⟩ :: vs)
    else (putFirst c a vs).map (v :: ·)

/-- A slab all of whose buffers are free. -/
def fresh (size p : ℕ) : View := ⟨p, (List.range (cap size)).map (slot size p)⟩

/-- Add slabs after the first one; the slabs that followed it are lost. -/
def growBy (size : ℕ) (ps : List ℕ) (vs : List View) : List View :=
  if ps = [] then vs else vs.take 1 ++ ps.map (fresh size)

theorem growBy_nil (size : ℕ) (ps : List ℕ) : growBy size ps [] = ps.map (fresh size) := by
  by_cases h : ps = [] <;> simp [growBy, h]

/-- Drop the slabs with `c` free buffers. -/
def reapFull (c : ℕ) (vs : List View) : List View := vs.filter fun v => v.free.length ≠ c

/-! ### Buffers of a page -/

section Slots
variable {size p a b : ℕ} {owned : Set ℕ} (ha : ∀ p ∈ owned, p % 4096 = 0)

theorem cap_mul_le (size : ℕ) : size * cap size ≤ 4056 := Nat.mul_div_le 4056 size

theorem slot_end {j : ℕ} (hj : j < cap size) : size * j + size ≤ 4056 := by
  have h1 : size * (j + 1) ≤ size * cap size := Nat.mul_le_mul_left _ hj
  have h2 := cap_mul_le size
  rw [Nat.mul_add, Nat.mul_one] at h1
  omega

theorem slot_page {j : ℕ} (hp : p % 4096 = 0) (hj : j < cap size) : slot size p j / 4096 * 4096 = p := by
  have := slot_end hj
  unfold slot
  generalize size * j = x at this ⊢
  omega

include ha

theorem IsSlot.page (h : IsSlot size owned a) : a / 4096 * 4096 ∈ owned ∧ a % 4096 + size ≤ 4056 := by
  obtain ⟨p, hp, j, hj, rfl⟩ := h
  have h1 := slot_end hj
  have h2 := ha p hp
  rw [slot_page h2 hj]
  refine ⟨hp, ?_⟩
  unfold slot
  omega

/-- **Different buffers do not overlap.** -/
theorem IsSlot.apart (h : IsSlot size owned a) (h' : IsSlot size owned b) (hne : a ≠ b) :
    a + size ≤ b ∨ b + size ≤ a := by
  obtain ⟨p, hp, i, hi, rfl⟩ := h
  obtain ⟨q, hq, j, hj, rfl⟩ := h'
  have h1 := slot_end hi
  have h2 := slot_end hj
  have h3 := ha p hp
  have h4 := ha q hq
  unfold slot at hne ⊢
  by_cases hpq : p = q
  · subst hpq
    rcases Nat.lt_trichotomy i j with hij | hij | hij
    · have := Nat.mul_le_mul_left size hij
      rw [Nat.mul_succ] at this
      omega
    · exact absurd (by rw [hij]) hne
    · have := Nat.mul_le_mul_left size hij
      rw [Nat.mul_succ] at this
      omega
  · omega

end Slots

theorem IsSlot.mono {size a : ℕ} {owned owned' : Set ℕ} (h : IsSlot size owned a) (hs : owned ⊆ owned') :
    IsSlot size owned' a := by
  obtain ⟨p, hp, j, hj, rfl⟩ := h
  exact ⟨p, hs hp, j, hj, rfl⟩

/-! ### What the operations do to the buffers -/

theorem takeFirst_perm {vs vs' : List View} {a : ℕ} (h : takeFirst vs = some (a, vs')) :
    (nodes vs).Perm (a :: nodes vs') ∧ vs'.map View.page = vs.map View.page ∧
      ∀ v' ∈ vs', ∃ v ∈ vs, v'.page = v.page ∧ v'.free <:+ v.free := by
  induction vs generalizing vs' a with
  | nil => cases h
  | cons v vs ih =>
    unfold takeFirst at h
    cases hf : v.free with
    | nil =>
      rw [hf] at h
      obtain ⟨r, hr, hr'⟩ := Option.map_eq_some_iff.mp h
      cases hr'
      obtain ⟨h1, h2, h3⟩ := ih hr
      refine ⟨?_, by simp [h2], fun v' hv' => ?_⟩
      · simpa [nodes, hf] using h1
      · rcases List.mem_cons.mp hv' with rfl | hv'
        · exact ⟨_, List.mem_cons_self .., rfl, List.suffix_rfl⟩
        · obtain ⟨w, hw, hw'⟩ := h3 v' hv'
          exact ⟨w, List.mem_cons_of_mem _ hw, hw'⟩
    | cons b l =>
      rw [hf] at h
      cases h
      refine ⟨by simp [nodes, hf], rfl, fun v' hv' => ?_⟩
      rcases List.mem_cons.mp hv' with rfl | hv'
      · exact ⟨v, List.mem_cons_self .., rfl, by rw [hf]; exact List.suffix_cons _ _⟩
      · exact ⟨v', List.mem_cons_of_mem _ hv', rfl, List.suffix_rfl⟩

theorem putFirst_perm {c a : ℕ} {vs vs' : List View} (h : putFirst c a vs = some vs') :
    (nodes vs').Perm (a :: nodes vs) ∧ vs'.map View.page = vs.map View.page ∧
      ∀ v' ∈ vs', v' ∈ vs ∨ ∃ v ∈ vs, v.free.length < c ∧ v' = ⟨v.page, a :: v.free⟩ := by
  induction vs generalizing vs' with
  | nil => cases h
  | cons v vs ih =>
    unfold putFirst at h
    split_ifs at h with hlt
    · cases h
      refine ⟨by simp [nodes], rfl, fun v' hv' => ?_⟩
      rcases List.mem_cons.mp hv' with rfl | hv'
      · exact Or.inr ⟨v, List.mem_cons_self .., hlt, rfl⟩
      · exact Or.inl (List.mem_cons_of_mem _ hv')
    · obtain ⟨r, hr, rfl⟩ := Option.map_eq_some_iff.mp h
      obtain ⟨h1, h2, h3⟩ := ih hr
      refine ⟨?_, by simp [h2], fun v' hv' => ?_⟩
      · have h4 : (v.free ++ nodes r).Perm (a :: (v.free ++ nodes vs)) :=
          (List.Perm.append_left _ h1).trans List.perm_middle
        simpa [nodes] using h4
      · rcases List.mem_cons.mp hv' with rfl | hv'
        · exact Or.inl (List.mem_cons_self ..)
        · rcases h3 v' hv' with hv' | ⟨w, hw, hw'⟩
          · exact Or.inl (List.mem_cons_of_mem _ hv')
          · exact Or.inr ⟨w, List.mem_cons_of_mem _ hw, hw'⟩

/-! ### Which slab is found -/

theorem takeFirst_split {vs vs' : List View} {a : ℕ} (h : takeFirst vs = some (a, vs')) :
    ∃ pre v post l, vs = pre ++ v :: post ∧ (∀ u ∈ pre, u.free = []) ∧ v.free = a :: l ∧
      vs' = pre ++ ⟨v.page, l⟩ :: post := by
  induction vs generalizing vs' a with
  | nil => cases h
  | cons v vs ih =>
    unfold takeFirst at h
    cases hf : v.free with
    | nil =>
      rw [hf] at h
      obtain ⟨r, hr, hr'⟩ := Option.map_eq_some_iff.mp h
      cases hr'
      obtain ⟨pre, w, post, l, rfl, h1, h2, h3⟩ := ih hr
      refine ⟨v :: pre, w, post, l, rfl, fun u hu => ?_, h2, by rw [h3]; rfl⟩
      rcases List.mem_cons.mp hu with rfl | hu
      · exact hf
      · exact h1 u hu
    | cons b l =>
      rw [hf] at h
      cases h
      exact ⟨[], v, vs, l, rfl, by simp, hf, rfl⟩

theorem takeFirst_eq_none {vs : List View} : takeFirst vs = none ↔ ∀ v ∈ vs, v.free = [] := by
  induction vs with
  | nil => simp [takeFirst]
  | cons v vs ih =>
    unfold takeFirst
    cases hf : v.free with
    | nil => simp [ih, hf]
    | cons b l => simp [hf]

theorem putFirst_split {c a : ℕ} {vs vs' : List View} (h : putFirst c a vs = some vs') :
    ∃ pre v post, vs = pre ++ v :: post ∧ (∀ u ∈ pre, ¬ u.free.length < c) ∧ v.free.length < c ∧
      vs' = pre ++ ⟨v.page, a :: v.free⟩ :: post := by
  induction vs generalizing vs' with
  | nil => cases h
  | cons v vs ih =>
    unfold putFirst at h
    split_ifs at h with hlt
    · cases h
      exact ⟨[], v, vs, rfl, by simp, hlt, rfl⟩
    · obtain ⟨r, hr, rfl⟩ := Option.map_eq_some_iff.mp h
      obtain ⟨pre, w, post, rfl, h1, h2, rfl⟩ := ih hr
      refine ⟨v :: pre, w, post, rfl, fun u hu => ?_, h2, rfl⟩
      rcases List.mem_cons.mp hu with rfl | hu
      · exact hlt
      · exact h1 u hu

theorem putFirst_eq_none {c a : ℕ} {vs : List View} :
    putFirst c a vs = none ↔ ∀ v ∈ vs, ¬ v.free.length < c := by
  induction vs with
  | nil => simp [putFirst]
  | cons v vs ih =>
    unfold putFirst
    by_cases hlt : v.free.length < c
    · simp [hlt]
    · rw [if_neg hlt, Option.map_eq_none_iff, ih, List.forall_mem_cons]
      exact ⟨fun h => ⟨hlt, h⟩, fun h => h.2⟩

/-! ### Separation -/

/-- **The free and the live buffers are different buffers of the pages owned.** -/
structure Apart (size : ℕ) (owned : Set ℕ) (vs : List View) (live : List ℕ) : Prop where
  nodup : (nodes vs ++ live).Nodup
  slots : ∀ a ∈ nodes vs ++ live, IsSlot size owned a
  pages : (vs.map View.page).Nodup
  owned : ∀ v ∈ vs, v.page ∈ owned
  count : ∀ v ∈ vs, v.free.length ≤ cap size

section Apart
variable {size a : ℕ} {owned : Set ℕ} {vs vs' : List View} {live : List ℕ}

theorem Apart.take (h : Apart size owned vs live) (ht : takeFirst vs = some (a, vs')) :
    Apart size owned vs' (a :: live) := by
  obtain ⟨h1, h2, h3⟩ := takeFirst_perm ht
  have hp : (nodes vs ++ live).Perm (nodes vs' ++ a :: live) :=
    (h1.append_right live).trans List.perm_middle.symm
  refine ⟨hp.nodup_iff.mp h.nodup, fun b hb => h.slots b (hp.mem_iff.mpr hb), by rw [h2]; exact h.pages,
    fun v' hv' => ?_, fun v' hv' => ?_⟩
  · obtain ⟨v, hv, h4, -⟩ := h3 v' hv'
    rw [h4]
    exact h.owned v hv
  · obtain ⟨v, hv, -, h5⟩ := h3 v' hv'
    exact h5.length_le.trans (h.count v hv)

theorem Apart.not_live (h : Apart size owned vs live) (ht : takeFirst vs = some (a, vs')) : a ∉ live := by
  have := (h.take ht).nodup
  exact (List.nodup_cons.mp (List.Nodup.of_append_right this)).1

theorem Apart.put (h : Apart size owned vs live) (ha : a ∈ live)
    (hp : putFirst (cap size) a vs = some vs') : Apart size owned vs' (live.erase a) := by
  obtain ⟨h1, h2, h3⟩ := putFirst_perm hp
  have hperm : (nodes vs' ++ live.erase a).Perm (nodes vs ++ live) :=
    (h1.append_right _).trans <|
      (List.perm_middle.symm).trans ((List.perm_cons_erase ha).symm.append_left _)
  refine ⟨hperm.nodup_iff.mpr h.nodup, fun b hb => h.slots b (hperm.mem_iff.mp hb),
    by rw [h2]; exact h.pages, fun v' hv' => ?_, fun v' hv' => ?_⟩
  · rcases h3 v' hv' with hv' | ⟨v, hv, -, rfl⟩
    · exact h.owned v' hv'
    · exact h.owned v hv
  · rcases h3 v' hv' with hv' | ⟨v, hv, hlt, rfl⟩
    · exact h.count v' hv'
    · exact hlt

theorem Apart.drop (h : Apart size owned vs live) (a : ℕ) : Apart size owned vs (live.erase a) := by
  have hs : (nodes vs ++ live.erase a).Sublist (nodes vs ++ live) :=
    List.erase_sublist.append_left _
  exact ⟨h.nodup.sublist hs, fun b hb => h.slots b (hs.subset hb), h.pages, h.owned, h.count⟩

/-! ### Growth -/

theorem mem_nodes {a : ℕ} {vs : List View} : a ∈ nodes vs ↔ ∃ v ∈ vs, a ∈ v.free := by
  unfold nodes
  simp

theorem mem_fresh {p : ℕ} : a ∈ (fresh size p).free ↔ ∃ j < cap size, a = slot size p j := by
  simp only [fresh, List.mem_map, List.mem_range]
  exact ⟨fun ⟨j, hj, h⟩ => ⟨j, hj, h.symm⟩, fun ⟨j, hj, h⟩ => ⟨j, hj, h.symm⟩⟩

theorem slot_injective {p : ℕ} (hs : 0 < size) : Function.Injective (slot size p) := fun i j h => by
  unfold slot at h
  exact Nat.eq_of_mul_eq_mul_left hs (by omega)

theorem nodup_fresh {p : ℕ} (hs : 0 < size) : (fresh size p).free.Nodup :=
  List.nodup_range.map (slot_injective hs)

/-- **A fresh page is added.** Slabs may be lost at the same time. -/
theorem Apart.add {p : ℕ} (h : Apart size owned vs live) (hs : 0 < size)
    (ha : ∀ q ∈ insert p owned, q % 4096 = 0) (hp : p ∉ owned) (hsub : vs'.Sublist vs) :
    Apart size (insert p owned) (vs' ++ [fresh size p]) live := by
  have hn : nodes (vs' ++ [fresh size p]) = nodes vs' ++ (fresh size p).free := by simp [nodes]
  have hsubn : (nodes vs').Sublist (nodes vs) := hsub.flatMap _
  -- the new buffers are in no page owned before
  have hnew : ∀ a ∈ (fresh size p).free, ¬ IsSlot size owned a := by
    intro a hm hslot
    have h1 : IsSlot size {p} a := by
      obtain ⟨j, hj, rfl⟩ := mem_fresh.mp hm
      exact ⟨p, rfl, j, hj, rfl⟩
    have h2 := (h1.page fun q hq => ha q (by rw [hq]; exact Set.mem_insert _ _)).1
    have h3 := (hslot.page fun q hq => ha q (Set.mem_insert_of_mem _ hq)).1
    rw [h2] at h3
    exact hp h3
  have hdisj : ∀ a ∈ nodes vs' ++ live, a ∉ (fresh size p).free := by
    intro a hm hf
    refine hnew a hf (h.slots a ?_)
    rcases List.mem_append.mp hm with hm | hm
    · exact List.mem_append_left _ (hsubn.subset hm)
    · exact List.mem_append_right _ hm
  have hperm : (nodes (vs' ++ [fresh size p]) ++ live).Perm
      ((fresh size p).free ++ (nodes vs' ++ live)) := by
    rw [hn]
    exact (List.perm_append_comm.append_right live).trans (by rw [List.append_assoc])
  refine ⟨hperm.nodup_iff.mpr (List.Nodup.append (nodup_fresh hs)
    (h.nodup.sublist (hsubn.append_right live)) fun a h1 h2 => hdisj a h2 h1), fun a hm => ?_, ?_,
    fun v hv => ?_, fun v hv => ?_⟩
  · rcases List.mem_append.mp (hperm.mem_iff.mp hm) with hm | hm
    · obtain ⟨j, hj, rfl⟩ := mem_fresh.mp hm
      exact ⟨p, Set.mem_insert _ _, j, hj, rfl⟩
    · refine (h.slots a ?_).mono (Set.subset_insert _ _)
      exact (hsubn.append_right live).subset hm
  · rw [List.map_append]
    refine List.Nodup.append (h.pages.sublist (hsub.map _)) (List.nodup_singleton _) fun q h1 h2 => ?_
    obtain ⟨v, hv, rfl⟩ := List.mem_map.mp h1
    rw [List.map_singleton, List.mem_singleton] at h2
    exact hp (by rw [show p = v.page from h2.symm]; exact h.owned v (hsub.subset hv))
  · rcases List.mem_append.mp hv with hv | hv
    · exact Set.mem_insert_of_mem _ (h.owned v (hsub.subset hv))
    · rw [List.mem_singleton.mp hv]
      exact Set.mem_insert _ _
  · rcases List.mem_append.mp hv with hv | hv
    · exact h.count v (hsub.subset hv)
    · rw [List.mem_singleton.mp hv]
      simp [fresh]

/-! ### Free buffers in their own page -/

/-- The free buffers of a slab are buffers of its own page. -/
def Local (vs : List View) : Prop := ∀ v ∈ vs, ∀ a ∈ v.free, a / 4096 * 4096 = v.page

/-- The slab that `putFirst` finds is that of the page of the buffer. -/
def PutsHome (c a : ℕ) (vs : List View) : Prop :=
  ∀ v, vs.find? (fun v => decide (v.free.length < c)) = some v → a / 4096 * 4096 = v.page

theorem Local.take (h : Local vs) (ht : takeFirst vs = some (a, vs')) : Local vs' := by
  intro v' hv' b hb
  obtain ⟨v, hv, h1, h2⟩ := (takeFirst_perm ht).2.2 v' hv'
  rw [h1]
  exact h v hv b (h2.subset hb)

theorem Local.put {c : ℕ} (h : Local vs) (hp : putFirst c a vs = some vs') (hh : PutsHome c a vs) :
    Local vs' := by
  induction vs generalizing vs' with
  | nil => cases hp
  | cons v vs ih =>
    have hvs : Local vs := fun w hw => h w (List.mem_cons_of_mem _ hw)
    unfold putFirst at hp
    split_ifs at hp with hlt
    · cases hp
      intro w hw b hb
      rcases List.mem_cons.mp hw with rfl | hw
      · rcases List.mem_cons.mp hb with rfl | hb
        · exact hh v (by simp [hlt])
        · exact h v (List.mem_cons_self ..) b hb
      · exact hvs w hw b hb
    · obtain ⟨r, hr, rfl⟩ := Option.map_eq_some_iff.mp hp
      have hr' := ih hvs hr fun w hw => hh w (by simpa [hlt] using hw)
      intro w hw b hb
      rcases List.mem_cons.mp hw with rfl | hw
      · exact h w (List.mem_cons_self ..) b hb
      · exact hr' w hw b hb

theorem Local.growBy {ps : List ℕ} (h : Local vs) (hp : ∀ p ∈ ps, p % 4096 = 0) :
    Local (growBy size ps vs) := by
  unfold SlabView.growBy
  split_ifs
  · exact h
  · intro v hv b hb
    rcases List.mem_append.mp hv with hv | hv
    · exact h v (List.mem_of_mem_take hv) b hb
    · obtain ⟨p, hm, rfl⟩ := List.mem_map.mp hv
      obtain ⟨j, hj, rfl⟩ := mem_fresh.mp hb
      exact slot_page (hp p hm) hj

/-- **A full count means a free page**: with the free buffers in their own pages, no live buffer and no
free buffer of another slab lies in the page of a slab with a full count. -/
theorem full_page_free {v : View} (h : Apart size owned vs live) (ha : ∀ p ∈ owned, p % 4096 = 0)
    (hl : Local vs) (hv : v ∈ vs) (hfull : v.free.length = cap size) :
    (∀ b ∈ live, b / 4096 * 4096 ≠ v.page) ∧
      ∀ w ∈ vs, w ≠ v → ∀ b ∈ w.free, b / 4096 * 4096 ≠ v.page := by
  have hin : ∀ a, IsSlot size owned a → a / 4096 * 4096 = v.page → a ∈ (fresh size v.page).free := by
    rintro a ⟨p, hp, j, hj, rfl⟩ hpage
    rw [slot_page (ha p hp) hj] at hpage
    rw [hpage]
    exact mem_fresh.mpr ⟨j, hj, rfl⟩
  have hsub : v.free ⊆ (fresh size v.page).free := fun a hm =>
    hin a (h.slots a (List.mem_append_left _ (mem_nodes.mpr ⟨v, hv, hm⟩))) (hl v hv a hm)
  have hnd : v.free.Nodup := by
    have := (List.nodup_append.mp h.nodup).1
    exact (List.nodup_flatMap.mp this).1 v hv
  -- as many different buffers as the page has
  have hperm : v.free.Perm (fresh size v.page).free :=
    (List.subperm_of_subset hnd hsub).perm_of_length_le (by rw [hfull]; simp [fresh])
  have hmem : ∀ b, IsSlot size owned b → b / 4096 * 4096 = v.page → b ∈ v.free :=
    fun b h1 h2 => hperm.mem_iff.mpr (hin b h1 h2)
  refine ⟨fun b hb hpage => ?_, fun w hw hne b hb hpage => ?_⟩
  · have h1 := hmem b (h.slots b (List.mem_append_right _ hb)) hpage
    exact (List.nodup_append.mp h.nodup).2.2 b (mem_nodes.mpr ⟨v, hv, h1⟩) b hb rfl
  · have h1 := hl w hw b hb
    have h2 : w.page = v.page := h1.symm.trans hpage
    exact hne (List.inj_on_of_nodup_map h.pages hw hv h2)

/-- **Reaping** keeps the separation; the pages of the slabs dropped are no longer owned. -/
theorem Apart.reap (h : Apart size owned vs live) (ha : ∀ p ∈ owned, p % 4096 = 0) (hl : Local vs) :
    Apart size (owned \ {p | ∃ v ∈ vs, v.free.length = cap size ∧ p = v.page}) (reapFull (cap size) vs)
      live := by
  have hsub : (reapFull (cap size) vs).Sublist vs := List.filter_sublist
  have hsubn : (nodes (reapFull (cap size) vs)).Sublist (nodes vs) := hsub.flatMap _
  have hmem : ∀ v ∈ reapFull (cap size) vs, v ∈ vs ∧ v.free.length ≠ cap size := by
    intro v hv
    simpa [reapFull] using hv
  -- no buffer left lies in a page that was dropped
  have hout : ∀ a ∈ nodes (reapFull (cap size) vs) ++ live, ∀ v ∈ vs, v.free.length = cap size →
      a / 4096 * 4096 ≠ v.page := by
    intro a hm v hv hfull
    obtain ⟨h1, h2⟩ := full_page_free h ha hl hv hfull
    rcases List.mem_append.mp hm with hm | hm
    · obtain ⟨w, hw, hb⟩ := mem_nodes.mp hm
      obtain ⟨hw1, hw2⟩ := hmem w hw
      exact h2 w hw1 (fun he => hw2 (he ▸ hfull)) a hb
    · exact h1 a hm
  refine ⟨h.nodup.sublist (hsubn.append_right live), fun a hm => ?_, h.pages.sublist (hsub.map _),
    fun v hv => ?_, fun v hv => h.count v (hmem v hv).1⟩
  · have hslot := h.slots a ((hsubn.append_right live).subset hm)
    obtain ⟨p, hp, j, hj, rfl⟩ := hslot
    refine ⟨p, ⟨hp, ?_⟩, j, hj, rfl⟩
    rintro ⟨v, hv, hfull, rfl⟩
    exact hout _ hm v hv hfull (slot_page (ha _ hp) hj)
  · obtain ⟨h1, h2⟩ := hmem v hv
    refine ⟨h.owned v h1, ?_⟩
    rintro ⟨w, hw, hfull, hpage⟩
    rw [List.inj_on_of_nodup_map h.pages h1 hw hpage] at h2
    exact h2 hfull

end Apart

end FusionCore.Mm.SlabView
