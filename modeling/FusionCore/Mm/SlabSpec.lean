import FusionCore.Lib.Runs
import FusionCore.Mm.PhysPages
import FusionCore.Mm.SlabReap

/-! # Runs of a slab cache

A run starts after `slab_cache_create` and makes calls on the cache; between them clients write in their
buffers. `live` records the buffers that have been handed out. Over any lawful page source a run without
`slab_cache_reap` keeps the free lists and the live buffers apart (`cache_sound`).

`slab_cache_free` puts a buffer on the first slab with room, which need not be the slab of its page,
so that a full count says nothing about the page: with two slabs `slab_cache_reap` can free a page
with a live buffer (`reap_frees_live_page`). If every buffer is put back on its own slab it does not
(`reaped_pages_free`). -/

namespace FusionCore.Mm.SlabSpec

open FusionCore.Lib.ByteMem FusionCore.Lib.NullChain FusionCore.Lib.Runs
open FusionCore.Mm.Defs FusionCore.Mm.Phys FusionCore.Mm.Pages FusionCore.Mm.PhysPages
open FusionCore.Mm.Slab FusionCore.Mm.SlabView FusionCore.Mm.SlabRep FusionCore.Mm.SlabOps
open FusionCore.Mm.SlabLife FusionCore.Mm.SlabReap
open FusionCore.Mm.PhysSpec (smallMap)

variable {σ : Type}

/-- A cache in use: the machine and the buffers clients hold. -/
structure SlabState (σ : Type) where
  machine : Machine σ
  live : List ℕ

/-- A call on the cache, or clients that change the memory. -/
inductive SlabOp
  | alloc (flags : SlabFlags)
  | free (flags : SlabFlags) (ptr : ℕ)
  | grow (flags : SlabFlags) (count : ℕ)
  | write (m : Mem)
  | reap (flags : SlabFlags)

/-- The effect of a call. -/
def exec (A : PageSource σ) (cache fuel : ℕ) (s : SlabState σ) : SlabOp → Except Halt (SlabState σ)
  | .alloc flags => (slabCacheAlloc A flags cache fuel s.machine).map fun r =>
      ⟨r.2, if r.1 = 0 then s.live else r.1 :: s.live⟩
  | .free flags ptr => (slabCacheFree flags cache ptr fuel s.machine).map fun t => ⟨t, s.live.erase ptr⟩
  | .grow flags count => (slabCacheGrow A flags cache count s.machine).map fun t => ⟨t, s.live⟩
  | .write m => .ok ⟨{ s.machine with mem := m }, s.live⟩
  | .reap flags => (slabCacheReap A flags cache fuel s.machine).map fun r => ⟨r.1, s.live⟩

/-- The bytes of the live buffers. -/
def liveBytes (size : ℕ) (live : List ℕ) : Set ℕ := {a | ∃ x ∈ live, x ≤ a ∧ a < x + size}

/-- The calls of a run: only live buffers are freed, and only they are written. -/
def Valid (size : ℕ) (s : SlabState σ) : SlabOp → Prop
  | .free _ ptr => ptr ∈ s.live
  | .write m => DiffersOn (liveBytes size s.live) s.machine.mem m
  | .alloc _ | .grow _ _ | .reap _ => True

/-- One call that returns. -/
def Step (A : PageSource σ) (size cache : ℕ) (s : SlabState σ) (o : SlabOp) (s' : SlabState σ) : Prop :=
  Valid size s o ∧ ∃ fuel, exec A cache fuel s o = .ok s'

/-- Any call but `slab_cache_reap`. -/
def SlabOp.NoReap : SlabOp → Prop
  | .reap _ => False
  | _ => True

/-! ### Sound caches -/

/-- Two buffers do not overlap. -/
def BufApart (size a b : ℕ) : Prop := a + size ≤ b ∨ b + size ≤ a

/-- **A sound cache**, with the slabs from `slabs_head` on, each with its free list. Every slab
record that was ever made lies at offset `4064` of a page. -/
structure Sound (m : Mem) (size cache : ℕ) (live : List ℕ) (slabs : List (ℕ × List ℕ)) : Prop where
  chain : Chain (fun a => load64 m (slabNext a)) (load64 m (cacheHead cache)) (slabs.map Prod.fst)
  place : ∀ d ∈ slabs, d.1 % 4096 = 4064
  free : ∀ d ∈ slabs, Chain (fun a => load64 m (bufctlNext a)) (load64 m (slabFreeHead d.1)) d.2
  count : ∀ d ∈ slabs, d.2.length = load64 m (slabCount d.1)
  max : ∀ d ∈ slabs, load64 m (slabCount d.1) ≤ load64 m (cacheMax cache)
  apart : (slabs.flatMap Prod.snd ++ live).Pairwise (BufApart size)
  headers : ∀ a ∈ live, ∀ h, h % 4096 = 4064 → a + size ≤ h ∨ h + 32 ≤ a

variable {A : PageSource σ} {arena : Set ℕ} {Good : Machine σ → Set ℕ → Prop} {size cache : ℕ}
  {s s' : SlabState σ} {m : Mem} {owned : Set ℕ} {vs : List View} {live : List ℕ}

theorem sound_of_inv (h : CacheInv m size cache owned vs live) :
    Sound m size cache live (vs.map fun v => (header v.page, v.free)) := by
  have hmem : ∀ d ∈ vs.map (fun v => (header v.page, v.free)), ∃ v ∈ vs, d = (header v.page, v.free) := by
    intro d hd
    obtain ⟨v, hv, rfl⟩ := List.mem_map.mp hd
    exact ⟨v, hv, rfl⟩
  refine ⟨?_, fun d hd => ?_, fun d hd => ?_, fun d hd => ?_, fun d hd => ?_, ?_, fun a ha p hp => ?_⟩
  · rw [List.map_map]
    exact h.rep.chain
  · obtain ⟨v, hv, rfl⟩ := hmem d hd
    have := h.aligned _ (h.apart.owned v hv)
    unfold header
    omega
  · obtain ⟨v, hv, rfl⟩ := hmem d hd
    exact h.rep.free v hv
  · obtain ⟨v, hv, rfl⟩ := hmem d hd
    exact (h.rep.count v hv).symm
  · obtain ⟨v, hv, rfl⟩ := hmem d hd
    rw [h.rep.count v hv, h.rep.max_eq]
    exact h.apart.count v hv
  · have hn : (vs.map fun v => (header v.page, v.free)).flatMap Prod.snd = nodes vs := by
      rw [List.flatMap_map]
      rfl
    rw [hn]
    refine (List.Pairwise.and_mem.mp h.apart.nodup).imp ?_
    rintro a b ⟨ha, hb, hne⟩
    exact (h.apart.slots a ha).apart h.aligned (h.apart.slots b hb) hne
  · obtain ⟨-, h2, -⟩ := h.slot_place (h.live_slot ha)
    omega

/-! ### Steps -/

section Steps
variable (hL : Lawful A arena Good)
include hL

/-- The invariant of a run: the cache and its source, and the buffers on their own slabs if `home`. -/
def Keeps (Good : Machine σ → Set ℕ → Prop) (size cache : ℕ) (home : Prop) (s : SlabState σ) : Prop :=
  ∃ H owned vs, Owns Good s.machine H size cache owned vs s.live ∧ (home → Local vs)

theorem keeps_create {flags : SlabFlags} {name : ℕ} {s t : Machine σ} {H : Set ℕ} (home : Prop)
    (hs : 16 ≤ size) (hG : Good s H) (hc : cache ≠ 0)
    (hnew : slabCacheCreate A flags name size s = .ok (cache, t)) :
    Keeps Good size cache home ⟨t, []⟩ := by
  obtain ⟨-, ps, h, -⟩ := create_spec hL hs hG hc hnew
  refine ⟨_, _, _, h, fun _ => ?_⟩
  rw [← growBy_nil]
  exact Local.growBy (fun v hv => by simp at hv) fun p hp => h.inv.aligned p hp

omit hL in
/-- The slab that `slab_cache_free` finds lies in the page of the buffer. -/
def FreesHome (m : Mem) (cache ptr : ℕ) : Prop :=
  ∀ slabs h, Chain (fun a => load64 m (slabNext a)) (load64 m (cacheHead cache)) slabs →
    slabs.find? (hasRoom cache m) = some h → h / 4096 = ptr / 4096

omit hL in
theorem putsHome_of_freesHome {a : ℕ} (h : CacheInv m size cache owned vs live)
    (hh : FreesHome m cache a) :
    PutsHome (cap size) a vs := by
  intro v hv
  obtain ⟨hroom, pre, post, rfl, hpre⟩ := List.find?_eq_some_iff_append.mp hv
  have hmem : v ∈ pre ++ v :: post := by simp
  have hfind : ((pre ++ v :: post).map fun v => header v.page).find? (hasRoom cache m) =
      some (header v.page) := by
    rw [List.map_append, List.map_cons]
    refine List.find?_eq_some_iff_append.mpr ⟨(hasRoom_eq h hmem).trans hroom, _, _, rfl, fun x hx => ?_⟩
    obtain ⟨u, hu, rfl⟩ := List.mem_map.mp hx
    rw [hasRoom_eq h (List.mem_append_left _ hu)]
    exact hpre u hu
  have h1 := hh _ _ h.rep.chain hfind
  have h2 := h.aligned _ (h.apart.owned v hmem)
  unfold header at h1
  omega

/-- **`slab_cache_reap`** keeps the invariant when the buffers are on their own slabs. -/
theorem reap_owns {flags : SlabFlags} {fuel : ℕ} {t t' : Machine σ} {H : Set ℕ} {freed : List ℕ}
    (h : Owns Good t H size cache owned vs live) (hl : Local vs)
    (hok : slabCacheReap A flags cache fuel t = .ok (t', freed)) :
    ∃ H' owned', Owns Good t' H' size cache owned' (reapFull (cap size) vs) live ∧
      Local (reapFull (cap size) vs) := by
  rcases reap_spec hL flags fuel h with ⟨t₂, hok₂, hI, hG⟩ | ⟨-, hok₂⟩
  swap
  · rw [hok₂] at hok
    cases hok
  rw [hok₂] at hok
  cases hok
  refine ⟨_, _, ⟨⟨hI.rep, h.inv.apart.reap h.inv.aligned hl, fun p hp => ?_, fun hc => ?_, hI.size_ge,
    hI.size_le⟩, hG, ?_⟩, fun v hv => hl v (List.mem_of_mem_filter hv)⟩
  · rcases hp with rfl | hp
    · exact hI.cache_ok
    · exact hI.pages p (Or.inr hp.1)
  · exact hI.cache_new hc.1
  · rintro p (rfl | hp)
    · refine ⟨h.handed (Or.inl rfl), ?_⟩
      rintro ⟨v, hv, -, rfl⟩
      exact hI.cache_new (h.inv.apart.owned v hv)
    · exact ⟨h.handed (Or.inr hp.1), hp.2⟩

/-- **A step keeps the invariant**; the buffers stay on their own slabs if each is put back there. -/
theorem keeps_step {home : Prop} {o : SlabOp} (h : Keeps Good size cache home s)
    (hs : Step A size cache s o s') (hfree : home → ∀ flags ptr, o = .free flags ptr →
      FreesHome s.machine.mem cache ptr) (hreap : ¬ home → o.NoReap) :
    Keeps Good size cache home s' := by
  obtain ⟨H, owned, vs, h, hl⟩ := h
  obtain ⟨hv, fuel, hok⟩ := hs
  cases o with
  | alloc flags =>
    obtain ⟨⟨a, t⟩, hr, rfl⟩ := map_eq_ok hok
    obtain ⟨H', owned', vs', hl', ⟨rfl, h'⟩ | ⟨ha, -, h'⟩⟩ := alloc_owns hL h hr
    · exact ⟨H', owned', vs', h', fun hh => hl' (hl hh)⟩
    · refine ⟨H', owned', vs', ?_, fun hh => hl' (hl hh)⟩
      dsimp only
      rw [if_neg ha]
      exact h'
  | free flags ptr =>
    obtain ⟨t, hr, rfl⟩ := map_eq_ok hok
    refine ⟨H, owned, _, free_owns hL h hv hr, fun hh => ?_⟩
    cases hp : putFirst (cap size) ptr vs with
    | none => exact hl hh
    | some vs' =>
      exact (hl hh).put hp (putsHome_of_freesHome h.inv (hfree hh flags ptr rfl))
  | grow flags count =>
    obtain ⟨t, hr, rfl⟩ := map_eq_ok hok
    obtain ⟨H', owned', vs', h', hl'⟩ := grow_owns hL h hr
    exact ⟨H', owned', vs', h', fun hh => hl' (hl hh)⟩
  | write m =>
    cases hok
    exact ⟨H, owned, vs, write_owns hL h hv, hl⟩
  | reap flags =>
    by_cases hh : home
    · obtain ⟨⟨t, freed⟩, hr, rfl⟩ := map_eq_ok hok
      obtain ⟨H', owned', h', hl'⟩ := reap_owns hL h (hl hh) hr
      exact ⟨H', owned', _, h', fun _ => hl'⟩
    · exact (hreap hh).elim

/-! ### Calls that return -/

section Returns
variable {t : Machine σ} {H : Set ℕ} {vs' : List View} {a p : ℕ} (flags : SlabFlags)
  (h : Owns Good t H size cache owned vs live)
include h

theorem alloc_step (ht : takeFirst vs = some (a, vs')) :
    ∃ s, Step A size cache ⟨t, live⟩ (.alloc flags) s ∧
    s.live = a :: live ∧ Owns Good s.machine H size cache owned vs' s.live := by
  obtain ⟨m', hI, hd, hres⟩ := alloc_take A h.inv ht
  rcases hres flags (vs.length + 1) with hres | ⟨hle, -⟩
  swap
  · omega
  have hb := hI.slot_place (hI.live_slot (List.mem_cons_self ..))
  have hb0 := hI.pages _ (Set.mem_insert_of_mem _ hb.1)
  have ha0 : a ≠ 0 := by omega
  refine ⟨⟨{ t with mem := m' }, a :: live⟩, ⟨trivial, vs.length + 1, ?_⟩, rfl,
    (owns_write hL h hI (by simp) hd).1⟩
  simp only [exec, hres, Except.map, if_neg ha0]

theorem free_step (ha : a ∈ live) (hp : putFirst (cap size) a vs = some vs') :
    ∃ s, Step A size cache ⟨t, live⟩ (.free flags a) s ∧ s.live = live.erase a ∧
      Owns Good s.machine H size cache owned vs' s.live := by
  obtain ⟨m', hI, hd, hres⟩ := free_put h.inv ha
  rcases hres flags (vs.length + 1) with hres | ⟨hle, -⟩
  swap
  · omega
  rw [hp, Option.getD_some] at hI
  refine ⟨⟨{ t with mem := m' }, live.erase a⟩, ⟨ha, vs.length + 1, ?_⟩, rfl,
    (owns_write hL h hI (by simpa using h.inv.live_slot ha) hd).1⟩
  simp [exec, hres, Except.map, hp]

end Returns

end Steps

/-! ### A cache of the kernel's allocator -/

theorem small_cache : ∃ t a, slabCacheCreate pmmSource ⟨true, false⟩ 0 512 booted = .ok (8192, t) ∧
    Owns (Handed smallMap) t {8192, a} 512 8192 {a} [fresh 512 a] [] := by
  have h8 : (pmmSource.allocz booted).1 = 8192 := by decide +kernel
  have hmore : ¬ Exhausted pmmSource (Handed smallMap) (insert (pmmSource.allocz booted).1 ∅) := by
    rintro ⟨s, hG, h0⟩
    rw [h8] at hG
    exact smallMap_serves (F := {8192}) (by simpa using hG) (by simp) h0
  obtain ⟨t, hok⟩ := create_returns smallMap_lawful ⟨true, false⟩ 0 le_rfl (by decide)
    handed_booted (by rw [h8]; norm_num) hmore
  rw [h8] at hok
  obtain ⟨-, ps, h, -, hlen⟩ := create_spec smallMap_lawful (by norm_num) handed_booted (by norm_num) hok
  obtain ⟨a, rfl⟩ := List.length_eq_one_iff.mp (hlen rfl)
  refine ⟨t, a, hok, ?_⟩
  have h1 : {q | q ∈ [a]} = ({a} : Set ℕ) := by
    ext q
    simp
  rw [h1] at h
  have h2 : insert 8192 ∅ ∪ {a} = ({8192, a} : Set ℕ) := by
    ext q
    simp [or_comm]
  rw [h2] at h
  exact h

theorem small_not_short (F : Finset ℕ) {n : ℕ} (hcard : F.card + n ≤ 31) (ps : List ℕ) :
    ¬ Short pmmSource (Handed smallMap) F n ps := by
  rintro ⟨hlen, s, hG, h0⟩
  refine smallMap_serves (F := F ∪ ps.toFinset) ?_ ?_ h0
  · have hset : ((F ∪ ps.toFinset : Finset ℕ) : Set ℕ) = ↑F ∪ {q | q ∈ ps} := by
      ext q
      simp
    rw [hset]
    exact hG
  · have h1 := Finset.card_union_le F ps.toFinset
    have h2 := List.toFinset_card_le ps
    omega

theorem small_cache_grow {t : Machine Pmm} {a : ℕ}
    (h : Owns (Handed smallMap) t {8192, a} 512 8192 {a} [fresh 512 a] []) :
    ∃ t' b H owned, Step pmmSource 512 8192 ⟨t, []⟩ (.grow ⟨true, false⟩ 1) ⟨t', []⟩ ∧
      Owns (Handed smallMap) t' H 512 8192 owned [fresh 512 a, fresh 512 b] [] := by
  have hcard : ({8192, a} : Finset ℕ).card ≤ 2 := Finset.card_le_two
  have hshort : ∀ ps, ¬ Short pmmSource (Handed smallMap) {8192, a} 1 ps := fun ps => by
    simpa using small_not_short {8192, a} (n := 1) (by omega) ps
  rcases grow_spec smallMap_lawful ⟨true, false⟩ 1 h with ⟨msg, ps, -, hs⟩ | ⟨t', ps, hok, h', -, hlen⟩
  · exact absurd hs (hshort ps)
  · obtain ⟨b, rfl⟩ := List.length_eq_one_iff.mp (hlen.resolve_right fun hn => hshort ps hn.2)
    exact ⟨t', b, _, _, ⟨trivial, 0, by simp [exec, hok, Except.map]⟩, h'⟩

/-! ### Safety -/

section Safety
variable (hL : Lawful A arena Good)
include hL

/-- **Slab safety.** In every state of a run of allocations, releases of live buffers, growth and
writes in live buffers, the cache is sound, and `slab_cache_alloc` returns no buffer that is live. -/
theorem cache_sound {flags : SlabFlags} {name : ℕ} {t₀ t : Machine σ} {H : Set ℕ} {ops : List SlabOp}
    (hs : 16 ≤ size) (hG : Good t₀ H) (hc : cache ≠ 0)
    (hnew : slabCacheCreate A flags name size t₀ = .ok (cache, t))
    (hr : Run (fun s o s' => Step A size cache s o s' ∧ o.NoReap) ⟨t, []⟩ ops s) :
    (∃ slabs, Sound s.machine.mem size cache s.live slabs) ∧
      ∀ flags fuel a t', slabCacheAlloc A flags cache fuel s.machine = .ok (a, t') → a ≠ 0 →
        a ∉ s.live := by
  have hk : Keeps Good size cache False s :=
    hr.invariant (keeps_create hL False hs hG hc hnew) fun s₁ o s₂ h hst =>
      keeps_step hL h hst.1 False.elim fun _ => hst.2
  obtain ⟨H, owned, vs, h, -⟩ := hk
  refine ⟨⟨_, sound_of_inv h.inv⟩, fun flags fuel a t' hok ha => ?_⟩
  obtain ⟨H', owned', vs', -, ⟨h0, -⟩ | ⟨-, hn, -⟩⟩ := alloc_owns hL h hok
  · exact absurd h0 ha
  · exact hn

end Safety

theorem cache_sound_small : ∃ t s, slabCacheCreate pmmSource ⟨true, false⟩ 0 512 booted = .ok (8192, t) ∧
    Step pmmSource 512 8192 ⟨t, []⟩ (.alloc ⟨true, false⟩) s ∧ s.live ≠ [] ∧
    ∃ slabs, Sound s.machine.mem 512 8192 s.live slabs := by
  obtain ⟨t, a, hnew, h⟩ := small_cache
  obtain ⟨s, hs, hl, -⟩ := alloc_step smallMap_lawful ⟨true, false⟩ h
    (show takeFirst [fresh 512 a] = some (slot 512 a 0, _) from rfl)
  refine ⟨t, s, hnew, hs, by simp [hl], ?_⟩
  exact (cache_sound smallMap_lawful (by norm_num) handed_booted (by norm_num) hnew
    (.cons ⟨hs, trivial⟩ .nil)).1

/-! ### Reaping -/

/-- The page of the slab record `h` holds no live buffer and no free buffer of a slab of the cache. -/
def PageUnused (m : Mem) (cache : ℕ) (live : List ℕ) (h : ℕ) : Prop :=
  (∀ b ∈ live, b / 4096 ≠ h / 4096) ∧
    ∀ slabs, Chain (fun a => load64 m (slabNext a)) (load64 m (cacheHead cache)) slabs → ∀ g ∈ slabs,
      ∀ free, Chain (fun a => load64 m (bufctlNext a)) (load64 m (slabFreeHead g)) free →
        ∀ b ∈ free, b / 4096 ≠ h / 4096

/-- One call that returns; a buffer is freed only when the slab found for it is that of its page. -/
def HomeStep (A : PageSource σ) (size cache : ℕ) (s : SlabState σ) (o : SlabOp)
    (s' : SlabState σ) : Prop :=
  Step A size cache s o s' ∧ ∀ flags ptr, o = .free flags ptr → FreesHome s.machine.mem cache ptr

section Reaping
variable (hL : Lawful A arena Good)
include hL

/-- **Reaped pages are unused** in every state of a run that puts every buffer back on its own slab: the
pages that `slab_cache_reap` frees hold no live buffer and no free buffer of a slab that remains. -/
theorem reaped_pages_unused {flags flags' : SlabFlags} {name fuel : ℕ} {t₀ t t' : Machine σ} {H : Set ℕ}
    {ops : List SlabOp} {freed : List ℕ} (hs : 16 ≤ size) (hG : Good t₀ H) (hc : cache ≠ 0)
    (hnew : slabCacheCreate A flags name size t₀ = .ok (cache, t))
    (hr : Run (HomeStep A size cache) ⟨t, []⟩ ops s)
    (hok : slabCacheReap A flags' cache fuel s.machine = .ok (t', freed)) :
    ∀ h ∈ freed, PageUnused t'.mem cache s.live h := by
  have hk : Keeps Good size cache True s :=
    hr.invariant (keeps_create hL True hs hG hc hnew) fun s₁ o s₂ h hst =>
      keeps_step hL h hst.1 (fun _ => hst.2) fun hn => absurd trivial hn
  obtain ⟨H, owned, vs, h, hl⟩ := hk
  rcases reap_spec hL flags' fuel h with ⟨t₂, hok₂, hI, -⟩ | ⟨-, hok₂⟩
  swap
  · rw [hok₂] at hok
    cases hok
  rw [hok₂] at hok
  cases hok
  intro x hx
  obtain ⟨v, hv, rfl⟩ := List.mem_map.mp hx
  obtain ⟨hv, hfull⟩ := List.mem_filter.mp hv
  have hfull : v.free.length = cap size := by simpa using hfull
  have hv4 := h.inv.aligned _ (h.inv.apart.owned v hv)
  obtain ⟨h1, h2⟩ := full_page_free h.inv.apart h.inv.aligned (hl trivial) hv hfull
  refine ⟨fun b hb he => h1 b hb ?_, fun slabs hslabs g hg free hfree b hb he => ?_⟩
  · unfold header at he
    omega
  · rw [chain_unique hslabs hI.rep.chain] at hg
    obtain ⟨w, hw, rfl⟩ := List.mem_map.mp hg
    rw [chain_unique hfree (hI.rep.free w hw)] at hb
    obtain ⟨hw, hnot⟩ := List.mem_filter.mp hw
    have hne : w ≠ v := by
      rintro rfl
      simp [hfull] at hnot
    refine h2 w hw hne b hb ?_
    unfold header at he
    omega

theorem alloc_all {l : List ℕ} {t : Machine σ} {H : Set ℕ} {p : ℕ} {rest : List View}
    (h : Owns Good t H size cache owned (⟨p, l⟩ :: rest) live) :
    ∃ ops s, Run (fun s o s' => Step A size cache s o s' ∧ o.NoReap) ⟨t, live⟩ ops s ∧
      s.live = l.reverse ++ live ∧
      Owns Good s.machine H size cache owned (⟨p, []⟩ :: rest) s.live := by
  induction l generalizing t live with
  | nil => exact ⟨[], _, .nil, rfl, h⟩
  | cons a l ih =>
    have ht : takeFirst (⟨p, a :: l⟩ :: rest) = some (a, ⟨p, l⟩ :: rest) := rfl
    obtain ⟨s₁, hs₁, hl₁, h₁⟩ := alloc_step hL ⟨true, false⟩ h ht
    rw [hl₁] at h₁
    obtain ⟨ops, s, hr, hl, h'⟩ := ih h₁
    obtain ⟨t₁, live₁⟩ := s₁
    cases hl₁
    exact ⟨_, s, .cons ⟨hs₁, trivial⟩ hr, by simp [hl], h'⟩

theorem free_all {l f : List ℕ} {t : Machine σ} {H : Set ℕ} {p : ℕ} {rest : List View}
    (h : Owns Good t H size cache owned (⟨p, f⟩ :: rest) (l ++ live))
    (hroom : l.length + f.length ≤ cap size) :
    ∃ ops s, Run (fun s o s' => Step A size cache s o s' ∧ o.NoReap) ⟨t, l ++ live⟩ ops s ∧
      s.live = live ∧
      Owns Good s.machine H size cache owned (⟨p, l.reverse ++ f⟩ :: rest) s.live := by
  induction l generalizing t f with
  | nil => exact ⟨[], _, .nil, rfl, h⟩
  | cons a l ih =>
    rw [List.length_cons] at hroom
    have hp : putFirst (cap size) a (⟨p, f⟩ :: rest) = some (⟨p, a :: f⟩ :: rest) :=
      if_pos (by dsimp only; omega)
    obtain ⟨s₁, hs₁, hl₁, h₁⟩ := free_step hL ⟨true, false⟩ h (by simp) hp
    rw [hl₁, List.cons_append, List.erase_cons_head] at h₁
    obtain ⟨ops, s, hr, hl, h'⟩ := ih h₁ (by rw [List.length_cons]; omega)
    obtain ⟨t₁, live₁⟩ := s₁
    rw [List.cons_append, List.erase_cons_head] at hl₁
    cases hl₁
    refine ⟨_, s, .cons ⟨hs₁, trivial⟩ hr, hl, ?_⟩
    rw [List.reverse_cons, List.append_assoc]
    exact h'

end Reaping

/-- A buffer is taken and put back, and the slab is reaped. -/
theorem reaped_pages_unused_small : ∃ t a s t' , slabCacheCreate pmmSource ⟨true, false⟩ 0 512 booted =
      .ok (8192, t) ∧
    Run (HomeStep pmmSource 512 8192) ⟨t, []⟩ [.alloc ⟨true, false⟩, .free ⟨true, false⟩ a] s ∧
    slabCacheReap pmmSource ⟨true, false⟩ 8192 2 s.machine = .ok (t', [header a]) ∧
    PageUnused t'.mem 8192 s.live (header a) := by
  obtain ⟨t, a, hnew, h⟩ := small_cache
  have ha := h.inv.aligned a rfl
  obtain ⟨⟨t₁, live₁⟩, hs₁, hl₁, h₁⟩ := alloc_step smallMap_lawful ⟨true, false⟩ h
    (show takeFirst [fresh 512 a] = some (slot 512 a 0, [⟨a, (fresh 512 a).free.tail⟩]) from rfl)
  cases hl₁
  obtain ⟨⟨t₂, live₂⟩, hs₂, hl₂, h₂⟩ :=
    free_step smallMap_lawful ⟨true, false⟩ h₁ (List.mem_singleton_self _)
    (show putFirst (cap 512) (slot 512 a 0) _ = some [fresh 512 a] from rfl)
  -- there is only one slab
  have hhome : FreesHome t₁.mem 8192 a := by
    intro slabs g hslabs hg
    rw [chain_unique hslabs h₁.inv.rep.chain] at hg
    have := List.mem_of_find?_eq_some hg
    simp only [List.map_cons, List.map_nil, List.mem_singleton, header] at this
    omega
  have hrun : Run (HomeStep pmmSource 512 8192) ⟨t, []⟩ [.alloc ⟨true, false⟩, .free ⟨true, false⟩ a]
      ⟨t₂, live₂⟩ := by
    refine .cons ⟨hs₁, fun _ _ h => by cases h⟩ (.cons ⟨hs₂, fun flags ptr he => ?_⟩ .nil)
    cases he
    exact hhome
  rcases reap_spec smallMap_lawful ⟨true, false⟩ 2 h₂ with ⟨t', hok, -⟩ | ⟨hle, -⟩
  · refine ⟨t, a, ⟨t₂, live₂⟩, t', hnew, hrun, hok, ?_⟩
    exact reaped_pages_unused smallMap_lawful (by norm_num) handed_booted (by norm_num) hnew hrun hok _
      (List.mem_singleton_self _)
  · exact absurd hle (by simp)

/-- Two slabs: all buffers of the first and one of the second are taken, and all but the first are
released. They go to the first slab, which is full then. -/
theorem small_mixed : ∃ t ops s a b l H owned,
    slabCacheCreate pmmSource ⟨true, false⟩ 0 512 booted = .ok (8192, t) ∧
    Run (fun s o s' => Step pmmSource 512 8192 s o s' ∧ o.NoReap) ⟨t, []⟩ ops s ∧
    Owns (Handed smallMap) s.machine H 512 8192 owned [⟨a, l⟩, ⟨b, (fresh 512 b).free.tail⟩] s.live ∧
    l.length = cap 512 ∧ s.live = [slot 512 a 0] := by
  obtain ⟨t, a, hnew, h⟩ := small_cache
  obtain ⟨t₁, b, H, owned, hs₁, h₁⟩ := small_cache_grow h
  obtain ⟨ops₂, ⟨t₂, live₂⟩, hr₂, hl₂, h₂⟩ := alloc_all smallMap_lawful h₁
  cases hl₂
  obtain ⟨⟨t₃, live₃⟩, hs₃, hl₃, h₃⟩ := alloc_step smallMap_lawful ⟨true, false⟩ h₂
    (show takeFirst _ = some (slot 512 b 0, [⟨a, []⟩, ⟨b, (fresh 512 b).free.tail⟩]) from rfl)
  cases hl₃
  have h₃ : Owns (Handed smallMap) t₃ H 512 8192 owned [⟨a, []⟩, ⟨b, (fresh 512 b).free.tail⟩]
      ((slot 512 b 0 :: (fresh 512 a).free.tail.reverse) ++ [slot 512 a 0]) := h₃
  obtain ⟨ops₄, ⟨t₄, live₄⟩, hr₄, hl₄, h₄⟩ := free_all smallMap_lawful h₃ (by simp [fresh, cap])
  exact ⟨t, _, _, a, b, _, H, owned, hnew,
    Run.append (.cons ⟨hs₁, trivial⟩ (.snoc hr₂ ⟨hs₃, trivial⟩)) hr₄, h₄, rfl, hl₄⟩

/-- The first slab is reaped with a live buffer in its page. -/
theorem reap_frees_live_page : ∃ t ops s fuel t' freed,
    slabCacheCreate pmmSource ⟨true, false⟩ 0 512 booted = .ok (8192, t) ∧
    Run (Step pmmSource 512 8192) ⟨t, []⟩ ops s ∧
    slabCacheReap pmmSource ⟨true, false⟩ 8192 fuel s.machine = .ok (t', freed) ∧
    ∃ h ∈ freed, ¬ PageUnused t'.mem 8192 s.live h := by
  obtain ⟨t, ops, s, a, b, l, H, owned, hnew, hrun, h, hlen, hlive⟩ := small_mixed
  have ha := h.inv.aligned a (h.inv.apart.owned ⟨a, l⟩ (by simp))
  rcases reap_spec smallMap_lawful ⟨true, false⟩ 3 h with ⟨t', hok, -⟩ | ⟨hle, -⟩
  · refine ⟨t, ops, s, 3, t', _, hnew, hrun.mono fun _ _ _ hs => hs.1, hok, header a, ?_, fun hu => ?_⟩
    · exact List.mem_map.mpr ⟨_, List.mem_filter.mpr ⟨List.mem_cons_self .., by simpa using hlen⟩, rfl⟩
    · refine hu.1 (slot 512 a 0) (by rw [hlive]; exact List.mem_singleton_self _) ?_
      unfold slot header
      omega
  · exact absurd hle (by simp)

end FusionCore.Mm.SlabSpec
