import FusionCore.Sys.Memory

/-! # What a step leaves alone

Every call writes in the bitmap and in pages of its own. `Core.block_live`: a block lies in one live
allocation of the physical memory manager, so that a write elsewhere does not meet it. The calls of
the heap (`malloc_apart`, `free_apart`) are taken apart as in the runs of the heap. For the paging
code the physical memory manager is a page source that keeps the memory of all other allocations as well
(`pmmSource_beside`). -/

namespace FusionCore.Sys.MemoryFrame

open FusionCore.Lib.ByteMem FusionCore.Mm
open FusionCore.Mm.Defs FusionCore.Mm.Phys FusionCore.Mm.PhysInit FusionCore.Mm.Pages
  FusionCore.Mm.PhysPages
open FusionCore.Mm.Slab FusionCore.Mm.SlabView FusionCore.Mm.SlabRep FusionCore.Mm.SlabOps
open FusionCore.Mm.SlabLife (inv_samePages)
open FusionCore.Libk.Malloc FusionCore.Libk.MallocInit FusionCore.Libk.MallocRun
open FusionCore.Sys.Memory
open FusionCore.Mm.PhysRun (Inv FirstFit initUsed_bounds)

variable {mmap : List MmapEntry} {F : Set ℕ} {m₀ m' : Mem} {h : Heap} {pg : ℕ → ℕ} {vs : ℕ → List View}
  {L : ℕ → List ℕ} {pm : List (ℕ × ℕ)} {k a b n ptr fuel size : ℕ} {o : Origin} {s t : HeapState}
  {s₁ : Machine Pmm}

/-- The bytes of an allocation of pages. -/
def extent (b : ℕ × ℕ) : Set ℕ := Set.Ico b.1 (b.1 + b.2 * 4096)

theorem mem_extent {b : ℕ × ℕ} {x : ℕ} : x ∈ extent b ↔ b.1 ≤ x ∧ x < b.1 + b.2 * 4096 := Iff.rfl

theorem extent_page (p : ℕ) : extent (p, 1) = page p := by rw [extent, page, Nat.one_mul]

/-! ### Where a block lies -/

section Place
variable (hC : Core mmap F m₀ h pg vs L pm) (hw : WellFormed mmap) (hf : Fits mmap)
include hC hw hf

/-- **A block lies in one live allocation**: the page of its slab, or its pages. -/
theorem block_live (hH : Holds F h pg L pm ptr o) : ∃ b ∈ pm, blockOf (ptr, o) ⊆ extent b ∧
    (b.1 ∈ reserved F h pg → ∃ k, o = .slab k ∧ b = (pg k, 1)) := by
  cases o with
  | slab k =>
    obtain ⟨b, hb, hptr, -, h2, hk⟩ := hH
    have hlt := hC.slab_block hw hf hk h2 hb
    have hI := hC.inv k hk h2
    obtain ⟨h3, h4, -⟩ := hI.slot_place (hI.live_slot hb)
    rw [Set.mem_singleton_iff] at h3
    refine ⟨(pg k, 1), hC.fixed _ (slab_mem hk), fun x hx => ?_, fun _ => ⟨k, rfl, rfl⟩⟩
    rw [blockOf, hptr, ofUser_toUser (by omega), Set.mem_Ico] at hx
    dsimp only [blockSize] at hx
    rw [mem_extent]
    dsimp only
    omega
  | pages n =>
    obtain ⟨b, hptr, hb, hbr, -⟩ := hH
    have hlt := (hC.pages_block hw hf hb).1
    refine ⟨(b, n), hb, fun x hx => ?_, fun hr => absurd hr hbr⟩
    rw [blockOf, hptr, ofUser_toUser (by omega)] at hx
    exact hx

theorem block_apart_pages (hH : Holds F h pg L pm ptr o) {q : ℕ × ℕ} (hq : q ∈ pm)
    (hr : q.1 ∈ reserved F h pg) (hne : ∀ k, o = .slab k → q ≠ (pg k, 1)) :
    Disjoint (blockOf (ptr, o)) (extent q) := by
  obtain ⟨b, hb, hsub, hres⟩ := block_live hC hw hf hH
  have hqb : q ≠ b := by
    rintro rfl
    obtain ⟨k, ho, he⟩ := hres hr
    exact hne k ho he
  have hap := live_apart hC.pmm hb hq hqb
  refine Set.disjoint_left.mpr fun x hx hxq => ?_
  have hx := mem_extent.mp (hsub hx)
  rw [mem_extent] at hxq
  unfold PhysRun.Apart at hap
  omega

theorem block_apart_bitmap (hH : Holds F h pg L pm ptr o) :
    Disjoint (blockOf (ptr, o)) (bitmapBytes mmap) := by
  obtain ⟨b, hb, hsub, -⟩ := block_live hC hw hf hH
  exact Set.disjoint_left.mpr fun x hx hxb =>
    not_mem_bitmap_of_live hw hf hC.pmm.safe hb (hsub hx) hxb

/-- **A block and what an operation on a buffer writes**, if it is not that buffer. -/
theorem block_apart_touch (hk : k < 8) (h2 : 2 ≤ k) (hslot : IsSlot (classSize k) {pg k} a)
    (hH : Holds F h pg L pm ptr o) (hne : o = .slab k → ptr ≠ toUser a) :
    Disjoint (blockOf (ptr, o)) (touch (classSize k) (h.slabCaches k) {pg k} {a}) := by
  have hI := hC.inv k hk h2
  have hX : ∀ y ∈ ({a} : Set ℕ), IsSlot (classSize k) {pg k} y := by
    rintro y rfl
    exact hslot
  refine Set.disjoint_left.mpr fun x hx ht => ?_
  by_cases ho : o = .slab k
  · subst ho
    obtain ⟨b, hb, hptr, -⟩ := hH
    have hbs := hI.live_slot hb
    have hlt := hC.slab_block hw hf hk h2 hb
    have hba : b ≠ a := by
      rintro rfl
      exact hne rfl hptr
    have hap := hbs.apart hI.aligned hslot hba
    obtain ⟨h3, h4, -⟩ := hI.slot_place hbs
    rw [Set.mem_singleton_iff] at h3
    have hc := hI.cache_ok
    have hcp : pg k ≠ h.slabCaches k := fun he => hI.cache_new he.symm
    rw [blockOf, hptr, ofUser_toUser (by omega), Set.mem_Ico] at hx
    dsimp only [blockSize] at hx
    rcases ht with ht | ⟨q, rfl, ht⟩ | ⟨q, rfl, ht⟩ <;> omega
  · obtain ⟨p, hp, hxp⟩ := touch_subset hI subset_rfl hX ht
    have hpg : ∀ q, q ∈ reserved F h pg → (∀ j, o = .slab j → q ≠ pg j) → x ∈ page q → False :=
      fun q hq hne' hxq => by
        refine (Set.disjoint_left.mp (block_apart_pages hC hw hf hH (hC.fixed q hq) hq fun j hj he =>
          hne' j hj (Prod.mk.inj he).1)) hx ?_
        rw [mem_extent]
        rw [mem_page] at hxq
        dsimp only
        omega
    have hj8 : ∀ j, o = .slab j → j < 8 := by
      rintro j rfl
      obtain ⟨-, -, -, -, -, h8⟩ := hH
      exact h8
    rcases hp with rfl | rfl
    · exact hpg _ (cache_mem hk) (fun j hj => hC.distinct.cache_ne k hk j (hj8 j hj)) hxp
    · refine hpg _ (slab_mem hk) (fun j hj he => ho ?_) hxp
      rw [hj, hC.distinct.page_inj k hk j (hj8 j hj) he]

end Place

/-! ### Calls of the heap -/

section Heap
variable (hC : Core mmap F m₀ h pg vs L pm)
include hC

theorem take_touch (hk : k < 8) (h2 : 2 ≤ k) (hok : takeBlock h fuel (.slab k) = .ok (b, s₁)) :
    IsSlot (classSize k) {pg k} b ∧ b ∉ L k ∧
      DiffersOn (touch (classSize k) (h.slabCaches k) {pg k} {b}) h.machine.mem (store16 s₁.mem b k) := by
  have hI := hC.inv k hk h2
  have hge := hI.size_ge
  cases ht : takeFirst (vs k) with
  | none =>
    -- `SLAB_PANIC` without `SLAB_AUTO_GROW`
    obtain ⟨m', -, -, hres⟩ := alloc_none pmmSource hI ht
    cases fuel with
    | zero => cases hok
    | succ fuel =>
      rw [takeBlock] at hok
      rcases hres ⟨true, false⟩ fuel with hr | ⟨-, hr⟩ <;> rw [hr] at hok <;> cases hok
  | some r =>
    have ht : takeFirst (vs k) = some (r.1, r.2) := ht
    obtain ⟨m', hI', hd, hres⟩ := alloc_take pmmSource hI ht
    have hok' : r.1 = b ∧ { h.machine with mem := m' } = s₁ := by
      rw [takeBlock] at hok
      rcases hres ⟨true, false⟩ fuel with hr | ⟨-, hr⟩
      · rw [hr] at hok
        exact Prod.mk.inj (Except.ok.inj hok)
      · rw [hr] at hok
        cases hok
    obtain ⟨rfl, rfl⟩ := hok'
    refine ⟨hI'.live_slot (List.mem_cons_self ..),
      (List.nodup_cons.mp (List.nodup_append.mp hI'.apart.nodup).2.1).1, ?_⟩
    refine differsOn_store16 (hd.mono ?_) fun x hx => ?_
    · rintro x (hx | hx | ⟨y, hy, -⟩)
      · exact Or.inl hx
      · exact Or.inr (Or.inl hx)
      · exact absurd hy (Set.notMem_empty _)
    · rw [Set.mem_Ico] at hx
      exact Or.inr (Or.inr ⟨r.1, rfl, hx.1, by omega⟩)

theorem give_touch (hk : k < 8) (h2 : 2 ≤ k) (hb : b ∈ L k)
    (hok : giveBlock h fuel b (.slab k) = .ok s₁) :
    DiffersOn (touch (classSize k) (h.slabCaches k) {pg k} {b}) h.machine.mem s₁.mem := by
  obtain ⟨m', -, hd, hres⟩ := free_put (hC.inv k hk h2) hb
  rw [giveBlock] at hok
  rcases hres ⟨true, false⟩ fuel with hr | ⟨-, hr⟩
  · rw [hr] at hok
    split_ifs at hok
    rwa [← Except.ok.inj hok]
  · rw [hr] at hok
    cases hok

variable (hw : WellFormed mmap) (hf : Fits mmap)
include hw hf

/-- **A buffer taken** lies apart from the blocks, which stay as they are. -/
theorem take_apart (hk : k < 8) (h2 : 2 ≤ k) (hok : takeBlock h fuel (.slab k) = .ok (b, s₁))
    (hH : Holds F h pg L pm ptr o) :
    Set.EqOn (store16 s₁.mem b k) h.machine.mem (blockOf (ptr, o)) ∧
      Disjoint (blockOf (toUser b, .slab k)) (blockOf (ptr, o)) := by
  obtain ⟨hslot, hnew, hd⟩ := take_touch hC hk h2 hok
  have hI := hC.inv k hk h2
  obtain ⟨h3, h4, -⟩ := hI.slot_place hslot
  have hlt := (hC.pages_block hw hf (hC.fixed _ (slab_mem hk))).1
  rw [Set.mem_singleton_iff] at h3
  have hap : Disjoint (blockOf (ptr, o)) (touch (classSize k) (h.slabCaches k) {pg k} {b}) := by
    refine block_apart_touch hC hw hf hk h2 hslot hH ?_
    rintro rfl he
    obtain ⟨c, hc, hptr, -⟩ := hH
    have hcb : c = b := by
      have := congrArg ofUser (hptr.symm.trans he)
      rwa [ofUser_toUser (by have := hC.slab_block hw hf hk h2 hc; omega),
        ofUser_toUser (by omega)] at this
    exact hnew (hcb ▸ hc)
  refine ⟨fun x hx => hd x (Set.disjoint_left.mp hap hx), (hap.mono_right fun x hx => ?_).symm⟩
  rw [blockOf, ofUser_toUser (by omega)] at hx
  exact Or.inr (Or.inr ⟨b, rfl, hx⟩)

/-- **Pages taken** lie apart from the blocks, which stay as they are. -/
theorem take_pages_apart (hn : 1 ≤ n) (hfit : FirstFit h.machine n)
    (hok : pmmAllocz h.machine n = (b, s₁)) (hb0 : b ≠ 0) (hH : Holds F h pg L pm ptr o) :
    Set.EqOn (store16 s₁.mem b n) h.machine.mem (blockOf (ptr, o)) ∧
      Disjoint (blockOf (toUser b, .pages n)) (blockOf (ptr, o)) := by
  obtain ⟨hI, -, hfr⟩ := pmmAllocz_firstFit hw hf hC.pmm hn hfit (by rw [hok]; exact hb0)
  rw [hok] at hI hfr
  dsimp only at hI hfr
  have hb : b < 2 ^ 43 := by
    have h1 := (hI.safe.marked (b, n) (List.mem_cons_self ..) 0 (by dsimp only; omega)).2.1
    have h2 := (initUsed_bounds hw hf).2.2
    have h3 := hI.safe.aligned (b, n) (List.mem_cons_self ..)
    dsimp only at h1 h3
    omega
  obtain ⟨q, hq, hsub, -⟩ := block_live hC hw hf hH
  have hap := (List.pairwise_cons.mp hI.safe.apart).1 q hq
  have hout : ∀ x ∈ blockOf (ptr, o), x ∉ Set.Ico b (b + n * 4096) := by
    intro x hx hxb
    have hx := mem_extent.mp (hsub hx)
    rw [Set.mem_Ico] at hxb
    unfold PhysRun.Apart at hap
    dsimp only at hap
    omega
  refine ⟨fun x hx => ?_, Set.disjoint_left.mpr fun x hxb hx => hout x hx ?_⟩
  · have hx' := hout x hx
    have hmeta : store16 s₁.mem b n x = s₁.mem x :=
      store_of_not_mem fun hc => hx' ⟨hc.1, lt_of_lt_of_le hc.2 (by omega)⟩
    exact hmeta.trans (hfr x (Set.disjoint_left.mp (block_apart_bitmap hC hw hf hH) hx) hx')
  · rw [blockOf, ofUser_toUser (by omega)] at hxb
    exact hxb

end Heap

section Calls
variable (hC : Core mmap F m₀ s.heap pg vs L pm) (hlive : ∀ e ∈ s.live, Holds F s.heap pg L pm e.1 e.2)
  (hw : WellFormed mmap) (hf : Fits mmap)
include hC hlive hw hf

/-- **`malloc`**: the block is new, and the live blocks stay as they are. -/
theorem malloc_apart (hok : exec fuel s (.malloc size) = .ok t) (hm : Meets s (.malloc size)) :
    ∃ e₁, t.live = e₁ :: s.live ∧ ∀ e ∈ s.live, Set.EqOn (memOf t) (memOf s) (blockOf e) ∧
      Disjoint (blockOf e₁) (blockOf e) := by
  obtain ⟨r, hr, rfl⟩ := map_eq_ok hok
  rw [malloc_eq] at hr
  obtain ⟨⟨b, s₁⟩, hb, rfl⟩ := map_eq_ok hr
  obtain ⟨h7, hpages⟩ := hm
  refine ⟨_, rfl, fun e he => ?_⟩
  cases ho : mallocRoute size with
  | slab k =>
    rw [ho] at hb
    obtain ⟨hk, h2⟩ := route_slab h7 ho
    exact take_apart hC hw hf hk h2 hb (hlive e he)
  | pages n =>
    rw [ho] at hb
    obtain ⟨hn, hfit, i, hi, hc⟩ := hpages n ho
    have hb := Except.ok.inj hb
    rw [hC.pmm.hi] at hi
    obtain ⟨j, hj, -, hjb, -⟩ := pmmAllocz_found hw hf hC.pmm hn hi hc
    rw [hb] at hjb
    dsimp only at hjb
    exact take_pages_apart hC hw hf hn hfit hb (by omega) (hlive e he)

/-- **`free`**: the other live blocks stay as they are. -/
theorem free_apart (hv : Valid s (.free ptr)) (hok : exec fuel s (.free ptr) = .ok t)
    (hm : Meets s (.free ptr)) : t.live = s.live.filter (·.1 ≠ ptr) ∧
      ∀ e ∈ s.live, e.1 ≠ ptr → Set.EqOn (memOf t) (memOf s) (blockOf e) := by
  obtain ⟨o, ho⟩ := hv
  obtain ⟨h, hh, rfl⟩ := map_eq_ok hok
  have hH := hlive _ ho
  obtain ⟨h0, hroute⟩ := hC.route hw hf hH fun k hk => hm k (hk ▸ ho)
  rw [free_eq _ _ h0, hroute] at hh
  obtain ⟨s₁, hg, rfl⟩ := map_eq_ok hh
  refine ⟨rfl, fun e he hne => ?_⟩
  cases o with
  | slab k =>
    obtain ⟨b, hb, hptr, -, h2, hk⟩ := hH
    dsimp only at hptr
    have hlt := hC.slab_block hw hf hk h2 hb
    rw [hptr, ofUser_toUser (by omega)] at hg
    have hd := give_touch hC hk h2 hb hg
    have hap := block_apart_touch hC hw hf hk h2 ((hC.inv k hk h2).live_slot hb) (hlive e he)
      fun _ => hptr ▸ hne
    exact fun x hx => hd x (Set.disjoint_left.mp hap hx)
  | pages n =>
    obtain ⟨b, hptr, hb, -, -⟩ := hH
    dsimp only at hptr
    have hlt := (hC.pages_block hw hf hb).1
    rw [hptr, ofUser_toUser (by omega)] at hg
    obtain rfl := Except.ok.inj hg
    obtain ⟨-, -, -, hfr⟩ := inv_free_part hw hf hC.pmm hb (Nat.mod_le n 65536)
    exact fun x hx => hfr x (Set.disjoint_left.mp (block_apart_bitmap hC hw hf (hlive e he)) hx)

end Calls

/-! ### Calls of the paging code -/

/-- The pages marked free that belong to no allocation of `base`. -/
def arenaBeside (mmap : List MmapEntry) (base : List (ℕ × ℕ)) : Set ℕ :=
  {p | p ∈ arenaOf mmap ∧ ∀ b ∈ base, Disjoint (page p) (extent b)}

/-- The live allocations are `base`, with the memory `m₀`, and the pages of `H`. -/
def Beside (mmap : List MmapEntry) (base : List (ℕ × ℕ)) (m₀ : Mem) (s : Machine Pmm)
    (H : Set ℕ) : Prop :=
  Over mmap base s H ∧ ∀ b ∈ base, Set.EqOn s.mem m₀ (extent b)

section Beside
variable {base : List (ℕ × ℕ)} (hw : WellFormed mmap) (hf : Fits mmap)

theorem page_beside {live : List (ℕ × ℕ)} {p : ℕ} (hI : Inv mmap ⟨s₁, live⟩) (hp : (p, 1) ∈ live)
    (hb : ∀ b ∈ base, b ∈ live) (hn : (p, 1) ∉ base) : ∀ b ∈ base, Disjoint (page p) (extent b) := by
  intro b hbb
  have hap := live_apart hI hp (hb b hbb) fun he => hn (he ▸ hbb)
  refine Set.disjoint_left.mpr fun x hx hxb => ?_
  rw [mem_page] at hx
  rw [mem_extent] at hxb
  unfold PhysRun.Apart at hap
  dsimp only at hap
  omega

theorem extent_arena {live : List (ℕ × ℕ)} {q : ℕ × ℕ} {x : ℕ} (hI : Inv mmap ⟨s₁, live⟩) (hq : q ∈ live)
    (hx : x ∈ extent q) : ∃ p ∈ arenaOf mmap, x ∈ page p := by
  have hal := hI.safe.aligned q hq
  rw [mem_extent] at hx
  have hmk := hI.safe.marked q hq (x / 4096 - q.1 / 4096) (by omega)
  rw [show q.1 / 4096 + (x / 4096 - q.1 / 4096) = x / 4096 by omega] at hmk
  refine ⟨x / 4096 * 4096, ⟨Nat.mul_mod_left _ _, by rwa [Nat.mul_div_cancel _ (by norm_num)]⟩, ?_⟩
  rw [mem_page]
  omega

include hw hf

/-- **The physical memory manager keeps the contract beside other allocations**, and their memory. -/
theorem pmmSource_beside (hb : homeBase mmap ≠ 0) (base : List (ℕ × ℕ)) (m₀ : Mem) :
    Lawful pmmSource (arenaBeside mmap base) (Beside mmap base m₀) where
  pages hp := (pmmSource_over hw hf hb base).pages hp.1
  handed := by
    rintro s H ⟨hO, -⟩ p hp
    refine ⟨(pmmSource_over hw hf hb base).handed hO hp, ?_⟩
    obtain ⟨live, hI, hH, hd⟩ := hO
    exact page_beside hI ((hH _).mpr (Or.inr ⟨rfl, hp⟩)) (fun b hb => (hH b).mpr (Or.inl hb)) (hd p hp)
  alloc := by
    rintro s H ⟨hO, hk⟩ h0
    obtain ⟨h1, h2, h3, h4⟩ := (pmmSource_over hw hf hb base).alloc hO h0
    refine ⟨h1, h2, h3, h4, fun b hbb x hx => ?_⟩
    obtain ⟨live, hI, hH, -⟩ := hO
    have hlive := (hH b).mpr (Or.inl hbb)
    obtain ⟨hI', -, hfr⟩ := pmmAllocz_firstFit hw hf hI le_rfl (firstFit_one_of_inv hw hf hI) h0
    have hap := (List.pairwise_cons.mp hI'.safe.apart).1 b hlive
    refine (hfr x (not_mem_bitmap_of_live hw hf hI.safe hlive hx) fun hc => ?_).trans (hk b hbb hx)
    rw [mem_extent] at hx
    rw [Set.mem_Ico] at hc
    unfold PhysRun.Apart at hap
    dsimp only at hap hc
    omega
  exhausted := by
    rintro s H ⟨hO, hk⟩ h0
    obtain ⟨h1, h2⟩ := (pmmSource_over hw hf hb base).exhausted hO h0
    refine ⟨h1, h2, fun b hbb x hx => ?_⟩
    obtain ⟨live, hI, hH, -⟩ := hO
    have hlive := (hH b).mpr (Or.inl hbb)
    -- the memset clears page 0, which no allocation contains
    rw [(allocz_fails_iff hw hf hI).2 h0]
    refine (fill_of_not_mem fun hc => ?_).trans (hk b hbb hx)
    have hm := (hI.safe.marked b hlive 0 (by have := hI.pos b hlive; omega)).1
    rw [mem_extent] at hx
    rw [Set.mem_Ico] at hc
    omega
  free := by
    rintro s H p q ⟨hO, hk⟩ hp hq
    obtain ⟨h1, h2⟩ := (pmmSource_over hw hf hb base).free hO hp hq
    refine ⟨fun r hr => h1 r hr.1, h2, fun b hbb x hx => ?_⟩
    obtain ⟨live, hI, hH, -⟩ := hO
    obtain ⟨r, hr, hxr⟩ := extent_arena hI ((hH b).mpr (Or.inl hbb)) hx
    exact (h1 r hr hxr).trans (hk b hbb hx)
  write := by
    rintro s H m ⟨hO, hk⟩ hm
    refine ⟨(pmmSource_over hw hf hb base).write hO fun x hx => hm x fun p hp => hx p hp.1,
      fun b hbb x hx => ?_⟩
    exact (hm x fun p hp hxp => Set.disjoint_left.mp (hp.2 b hbb) hxp hx).trans (hk b hbb hx)

end Beside

section Vmm
open FusionCore.Mm.VirtSpec (VmmOp AllServed Refines refines_step step_of_lawful next)

variable {T : List ℕ} {root : ℕ} {space : ℕ → Option ℕ} {v : VmmOp}
  (hC : Core mmap {t | t ∈ T} m₀ h pg vs L pm)
include hC

theorem core_beside : Beside mmap (pm.filter fun b => ¬ (b.2 = 1 ∧ b.1 ∈ T)) h.machine.mem h.machine
    {t | t ∈ T} := by
  refine ⟨⟨pm, hC.pmm, fun b => ?_, fun p hp hb => ?_⟩, fun _ _ _ _ => rfl⟩
  · rw [List.mem_filter, decide_eq_true_eq]
    constructor
    · intro hb
      by_cases hT : b.2 = 1 ∧ b.1 ∈ T
      · exact Or.inr hT
      · exact Or.inl ⟨hb, hT⟩
    · rintro (⟨hb, -⟩ | ⟨h1, h2⟩)
      · exact hb
      · rw [show b = (b.1, 1) from Prod.ext rfl h1]
        exact hC.fixed _ (Or.inl h2)
  · rw [List.mem_filter, decide_eq_true_eq] at hb
    exact hb.2 ⟨rfl, hp⟩

theorem mem_beside {p : ℕ} (hp : p ∈ reserved ∅ h pg) :
    (p, 1) ∈ pm.filter fun b => ¬ (b.2 = 1 ∧ b.1 ∈ T) := by
  rw [List.mem_filter, decide_eq_true_eq]
  rcases hp with hp | ⟨k, hk, rfl | rfl⟩
  · exact absurd hp (Set.notMem_empty _)
  · exact ⟨hC.fixed _ (cache_mem hk), fun hc => (hC.others k hk).1 hc.2⟩
  · exact ⟨hC.fixed _ (slab_mem hk), fun hc => (hC.others k hk).2 hc.2⟩

variable (hw : WellFormed mmap) (hf : Fits mmap) (hb : homeBase mmap ≠ 0)
include hw hf hb

/-- **`vmm_map_page` and `vmm_unmap_page`**: one translation changes, the heap and its blocks stay as they
are. -/
theorem vmm_apart (hR : Refines root ⟨h.machine, T⟩ space) (hv : v.Valid)
    (hs : AllServed pmmSource h.machine root (alignDown v.virt 4096) v.flags) :
    ∃ T' pm', Refines root ⟨VirtSpec.exec pmmSource root h.machine v, T'⟩ (next space v) ∧
      Core mmap {t | t ∈ T'} (VirtSpec.exec pmmSource root h.machine v).mem
        { h with machine := VirtSpec.exec pmmSource root h.machine v } pg vs L pm' ∧
      ∀ ptr o, Holds {t | t ∈ T} h pg L pm ptr o →
        Holds {t | t ∈ T'} { h with machine := VirtSpec.exec pmmSource root h.machine v } pg L pm' ptr o ∧
          Set.EqOn (VirtSpec.exec pmmSource root h.machine v).mem h.machine.mem (blockOf (ptr, o)) := by
  have hL := pmmSource_beside hw hf hb (pm.filter fun b => ¬ (b.2 = 1 ∧ b.1 ∈ T)) h.machine.mem
  obtain ⟨⟨s', T'⟩, hstep, hO', hk⟩ := step_of_lawful hL hR.1 (core_beside hC) hv hs
  obtain rfl : s' = VirtSpec.exec pmmSource root h.machine v := hstep.2.1
  have hR' := refines_step hR hstep
  obtain ⟨pm', hI', hH', hd'⟩ := hO'
  dsimp only at hI' hH' hd' hk hR'
  have hbase : ∀ b ∈ pm.filter fun b => ¬ (b.2 = 1 ∧ b.1 ∈ T), b ∈ pm' := fun b hb =>
    (hH' b).mpr (Or.inl hb)
  have hpage : ∀ p ∈ reserved ∅ h pg, Set.EqOn
      (VirtSpec.exec pmmSource root h.machine v).mem h.machine.mem
      (page p) := fun p hp => by
    rw [← extent_page]
    exact hk _ (mem_beside hC hp)
  have hres : ∀ k < 8, h.slabCaches k ∈ reserved ∅ h pg ∧ pg k ∈ reserved ∅ h pg := fun k hk =>
    ⟨cache_mem hk, slab_mem hk⟩
  have hcore : Core mmap {t | t ∈ T'} (VirtSpec.exec pmmSource root h.machine v).mem
      { h with machine := VirtSpec.exec pmmSource root h.machine v } pg vs L pm' := by
    refine ⟨hI', fun p hp => ?_, fun k hk8 => ⟨fun hc => hd' _ hc ?_, fun hc => hd' _ hc ?_⟩,
      fun _ _ _ _ => rfl, hC.distinct, fun k hk8 => ?_, fun k hk8 h2 =>
        inv_samePages (hC.inv k hk8 h2) ?_⟩
    · rcases hp with hp | ⟨k, hk8, rfl | rfl⟩
      · exact (hH' _).mpr (Or.inr ⟨rfl, hp⟩)
      · exact hbase _ (mem_beside hC (hres k hk8).1)
      · exact hbase _ (mem_beside hC (hres k hk8).2)
    · exact mem_beside hC (hres k hk8).1
    · exact mem_beside hC (hres k hk8).2
    · refine (load64_congr fun x hx => hpage _ (hres k hk8).1 ?_).trans (hC.head_eq k hk8)
      simp only [cacheHead, Set.mem_Ico, mem_page] at hx ⊢
      omega
    · rintro p (rfl | rfl)
      · exact hpage _ (hres k hk8).1
      · exact hpage _ (hres k hk8).2
  refine ⟨T', pm', hR', hcore, fun ptr o hH => ?_⟩
  obtain ⟨q, hq, hsub, hqr⟩ := block_live hC hw hf hH
  have hqb : q ∈ pm.filter fun b => ¬ (b.2 = 1 ∧ b.1 ∈ T) := by
    rw [List.mem_filter, decide_eq_true_eq]
    refine ⟨hq, fun hc => ?_⟩
    obtain ⟨k, rfl, rfl⟩ := hqr (Or.inl hc.2)
    obtain ⟨-, -, -, -, -, hk8⟩ := hH
    exact (hC.others k hk8).2 hc.2
  have hsame : Set.EqOn (VirtSpec.exec pmmSource root h.machine v).mem h.machine.mem (blockOf (ptr, o)) :=
    fun x hx => hk q hqb (hsub hx)
  refine ⟨?_, hsame⟩
  cases o with
  | slab k =>
    obtain ⟨b, hb, hptr, hm, h2, hk8⟩ := hH
    have hlt := hC.slab_block hw hf hk8 h2 hb
    have hge := (hC.inv k hk8 h2).size_ge
    refine ⟨b, hb, hptr, ?_, h2, hk8⟩
    rw [← hm]
    refine load_congr fun x hx => hsame ?_
    rw [blockOf, hptr, ofUser_toUser (by omega)]
    rw [Set.mem_Ico] at hx ⊢
    dsimp only [blockSize]
    omega
  | pages n =>
    obtain ⟨b, hptr, hb, hbr, hm⟩ := hH
    have hlt := (hC.pages_block hw hf hb).1
    have hpos := hC.pmm.pos _ hb
    have hbb : (b, n) ∈ pm.filter fun b => ¬ (b.2 = 1 ∧ b.1 ∈ T) := by
      rw [List.mem_filter, decide_eq_true_eq]
      exact ⟨hb, fun hc => hbr (Or.inl hc.2)⟩
    refine ⟨b, hptr, hbase _ hbb, ?_, ?_⟩
    · rintro (hc | hc)
      · -- a page table is an allocation of its own
        have hne : (b, n) ≠ (b, 1) := by
          intro he
          exact hd' b hc (he ▸ hbb)
        have hap := live_apart hI' ((hH' (b, 1)).mpr (Or.inr ⟨rfl, hc⟩)) (hbase _ hbb) hne
        unfold PhysRun.Apart at hap
        dsimp only at hap hpos
        omega
      · exact hbr (Or.inr hc)
    · rw [← hm]
      refine load_congr fun x hx => hk _ hbb ?_
      rw [Set.mem_Ico] at hx
      rw [mem_extent]
      dsimp only at hpos ⊢
      omega

end Vmm

end FusionCore.Sys.MemoryFrame
