import FusionCore.Mm.VirtUnmap

/-! # `vmm_map_range` and `vmm_unmap_range`

Both are one loop over pages with different bodies, `pageLoop`: the bounds are rounded and the
counter runs modulo `2 ^ 64`. Where the end is not in the topmost page the loop visits the pages of
the range once each (`pageLoop_eq`); for a later end `ALIGN_UP` is 0 and the body is never run.

* `unmaps_range_iff`: `vmm_unmap_range` is right exactly if the range ends at or below the topmost page or
  nothing in it was mapped.
* `maps_range`: `vmm_map_range` maps every page of the range and no other. -/

namespace FusionCore.Mm.VirtRange

open FusionCore.Lib.ByteMem FusionCore.Lib.Radix FusionCore.Lib.Runs
open FusionCore.Mm.Defs FusionCore.Mm.Phys FusionCore.Mm.PhysInit FusionCore.Mm.Pages
  FusionCore.Mm.PhysPages
open FusionCore.Mm.Virt FusionCore.Mm.VirtTree FusionCore.Mm.VirtSpec FusionCore.Mm.VirtInit
open FusionCore.Mm.VirtUnmap
open FusionCore.Mm.PhysSpec (smallMap smallMap_wellFormed smallMap_fits)

variable {σ : Type}

/-! ### The loop -/

/-- `for (i = first; i < stop; i += PAGE_SIZE) body`, with at most `fuel` tests of the condition. -/
def pageLoop (body : ℕ → Machine σ → Machine σ) (stop : ℕ) : ℕ → ℕ → Machine σ → Option (Machine σ)
  | 0, _, _ => none
  | fuel + 1, i, s =>
    if i < stop then pageLoop body stop fuel ((i + 4096) % 2 ^ 64) (body i s) else some s

/-- `vmm_unmap_range`. -/
def vmmUnmapRange (A : PageSource σ) (fuel : ℕ) (s : Machine σ) (pageTbl start endAddr : ℕ) :
    Option (Machine σ) :=
  pageLoop (fun i s => vmmUnmapPage A s pageTbl i) (alignUp endAddr 4096) fuel (alignDown start 4096) s

/-- `vmm_map_range`, test by test. -/
def vmmMapRangeLoop (A : PageSource σ) (fuel : ℕ) (s : Machine σ)
    (pageTbl start endAddr offset flags : ℕ) : Option (Machine σ) :=
  pageLoop (fun i s => vmmMapPage A s pageTbl i ((i + offset) % 2 ^ 64) flags) (alignUp endAddr 4096) fuel
    (alignDown start 4096) s

section Loop
variable {body : ℕ → Machine σ → Machine σ} {start endAddr i : ℕ}

/-- **The loop visits `n` pages** from page `j` on, if the counter does not wrap. -/
theorem pageLoop_eq (n : ℕ) : ∀ (j fuel : ℕ) (s : Machine σ), 4096 * (j + n) < 2 ^ 64 → n < fuel →
    pageLoop body (4096 * (j + n)) fuel (4096 * j) s =
      some ((List.range' j n).foldl (fun s k => body (4096 * k) s) s) := by
  induction n with
  | zero =>
    intro j fuel s _ hfuel
    obtain ⟨fuel, rfl⟩ := Nat.exists_eq_succ_of_ne_zero (Nat.pos_iff_ne_zero.mp hfuel)
    rw [pageLoop, if_neg (by omega)]
    rfl
  | succ n ih =>
    intro j fuel s hlt hfuel
    obtain ⟨fuel, rfl⟩ := Nat.exists_eq_succ_of_ne_zero (show fuel ≠ 0 by omega)
    rw [pageLoop, if_pos (by omega), show (4096 * j + 4096) % 2 ^ 64 = 4096 * (j + 1) by omega,
      show j + (n + 1) = j + 1 + n by omega, ih (j + 1) fuel _ (by omega) (by omega), List.range'_succ]
    rfl

theorem bounds_eq (hse : start ≤ endAddr) (hend : endAddr ≤ 2 ^ 64 - 4096) :
    alignDown start 4096 = 4096 * (start / 4096) ∧
      alignUp endAddr 4096 = 4096 * (start / 4096 + ((endAddr + 4095) / 4096 - start / 4096)) ∧
      4096 * (start / 4096 + ((endAddr + 4095) / 4096 - start / 4096)) < 2 ^ 64 := by
  rw [alignDown_page (by omega), alignUp_page (by omega)]
  omega

theorem alignUp_top (h1 : 2 ^ 64 - 4096 < endAddr) (h2 : endAddr < 2 ^ 64) :
    alignUp endAddr 4096 = 0 := by
  rw [alignUp_mod]
  omega

theorem pageLoop_stop {s s' : Machine σ} {fuel : ℕ} (h : pageLoop body 0 fuel i s = some s') :
    s' = s := by
  cases fuel with
  | zero => cases h
  | succ fuel =>
    rw [pageLoop, if_neg (Nat.not_lt_zero _)] at h
    exact (Option.some.inj h).symm

end Loop

/-! ### Unmapping a range -/

/-- A page that meets the range. -/
def InRange (start endAddr i : ℕ) : Prop := i % 4096 = 0 ∧ (page i ∩ Set.Ico start endAddr).Nonempty

theorem inRange_iff {start endAddr k : ℕ} (h : start < endAddr) :
    InRange start endAddr (4096 * k) ↔ start / 4096 ≤ k ∧ k < (endAddr + 4095) / 4096 := by
  constructor
  · rintro ⟨-, x, ⟨h1, h2⟩, h3, h4⟩
    omega
  · rintro ⟨h1, h2⟩
    refine ⟨Nat.mul_mod_right _ _, max start (4096 * k), ⟨?_, ?_⟩, ?_, ?_⟩ <;> omega

section Unmap
variable {mmap : List MmapEntry} {base : List (ℕ × ℕ)} {s : Machine Pmm}
  {tbl start endAddr : ℕ} {T : List ℕ}

/-- **`vmm_unmap_range` is right**: it returns, no page that meets the range is mapped, and every
page number that is not of the range keeps its translation. -/
def UnmapsRange (tbl start endAddr : ℕ) (s : Machine Pmm) : Prop :=
  ∃ fuel s', vmmUnmapRange pmmSource fuel s tbl start endAddr = some s' ∧
    (∀ i, InRange start endAddr i → walk s'.mem (physOf tbl) i = none) ∧
    ∀ v, (∀ i, InRange start endAddr i → pageNumber i ≠ pageNumber v) →
      walk s'.mem (physOf tbl) v = walk s.mem (physOf tbl) v

variable (hw : WellFormed mmap) (hf : Fits mmap) (hb : homeBase mmap ≠ 0)
include hw hf hb

theorem foldl_unmap (l : List ℕ) (hl : ∀ k ∈ l, 4096 * k < 2 ^ 64) : ∀ (s : Machine Pmm) (T : List ℕ),
    TreeInv s.mem (physOf tbl) T → Over mmap base s {t | t ∈ T} → ∀ w,
      walk (l.foldl (fun s k => vmmUnmapPage pmmSource s tbl (4096 * k)) s).mem (physOf tbl) w =
        if ∃ k ∈ l, pageNumber w = pageNumber (4096 * k) then none else walk s.mem (physOf tbl) w := by
  induction l with
  | nil => exact fun s T _ _ w => (if_neg (by simp)).symm
  | cons k l ih =>
    intro s T hI hG w
    obtain ⟨T', hI', hG', -, hwalk⟩ := unmap_page hw hf hb hI hG (hl k (List.mem_cons_self ..))
    rw [List.foldl_cons, ih (fun k hk => hl k (List.mem_cons_of_mem _ hk)) _ T' hI' hG' w, hwalk w]
    have hcons : (∃ k' ∈ k :: l, pageNumber w = pageNumber (4096 * k')) ↔
        pageNumber w = pageNumber (4096 * k) ∨ ∃ k' ∈ l, pageNumber w = pageNumber (4096 * k') :=
      List.exists_mem_cons_iff _ _ _
    by_cases hrest : ∃ k' ∈ l, pageNumber w = pageNumber (4096 * k')
    · rw [if_pos hrest, if_pos (hcons.mpr (Or.inr hrest))]
    · rw [if_neg hrest]
      exact if_congr ⟨fun hk => hcons.mpr (Or.inl hk), fun hk =>
        (hcons.mp hk).resolve_right hrest⟩ rfl rfl

/-- **Unmapping a range.** `vmm_unmap_range` is right if and only if the range ends at or below the
topmost page, or no page of it is mapped. -/
theorem unmaps_range_iff (hI : TreeInv s.mem (physOf tbl) T) (hG : Over mmap base s {t | t ∈ T})
    (hse : start < endAddr) (hend : endAddr < 2 ^ 64) : UnmapsRange tbl start endAddr s ↔
      endAddr ≤ 2 ^ 64 - 4096 ∨ ∀ i, InRange start endAddr i → walk s.mem (physOf tbl) i = none := by
  rcases Nat.lt_or_ge (2 ^ 64 - 4096) endAddr with htop | htop
  · -- the loop is not entered
    have hstop := alignUp_top htop hend
    have hbig : ¬ endAddr ≤ 2 ^ 64 - 4096 := by omega
    rw [or_iff_right hbig]
    constructor
    · rintro ⟨fuel, s', hrun, hnone, -⟩
      unfold vmmUnmapRange at hrun
      rw [hstop] at hrun
      rwa [pageLoop_stop hrun] at hnone
    · intro hnone
      refine ⟨1, s, ?_, hnone, fun _ _ => rfl⟩
      unfold vmmUnmapRange
      rw [hstop, pageLoop, if_neg (Nat.not_lt_zero _)]
  · refine iff_of_true ?_ (Or.inl htop)
    obtain ⟨h1, h2, h3⟩ := bounds_eq hse.le htop
    set n := (endAddr + 4095) / 4096 - start / 4096 with hn
    have hmem : ∀ k, k ∈ List.range' (start / 4096) n ↔ InRange start endAddr (4096 * k) := by
      intro k
      rw [inRange_iff hse, List.mem_range'_1]
      omega
    have hl : ∀ k ∈ List.range' (start / 4096) n, 4096 * k < 2 ^ 64 := fun k hk => by
      have := (List.mem_range'_1.mp hk).2
      omega
    have hwalk := foldl_unmap hw hf hb (List.range' (start / 4096) n) hl s T hI hG
    have hrun : vmmUnmapRange pmmSource (n + 1) s tbl start endAddr =
        some ((List.range' (start / 4096) n).foldl
        (fun s k => vmmUnmapPage pmmSource s tbl (4096 * k)) s) := by
      unfold vmmUnmapRange
      rw [h1, h2]
      exact pageLoop_eq n _ _ s h3 (Nat.lt_succ_self n)
    refine ⟨n + 1, _, hrun, fun i hi => ?_, fun v hv => ?_⟩
    · obtain ⟨k, rfl⟩ := Nat.dvd_of_mod_eq_zero hi.1
      rw [hwalk, if_pos ⟨k, (hmem k).mpr hi, rfl⟩]
    · rw [hwalk, if_neg]
      rintro ⟨k, hk, hpn⟩
      exact hv _ ((hmem k).mp hk) hpn.symm

end Unmap

/-- The machine after a page has been mapped at the top of the address space. -/
def topMapped : Machine Pmm := exec pmmSource 8192 rooted (.map 0x5000 (2 ^ 64 - 4096) .kernelRead)

theorem top_served : AllServed pmmSource rooted 8192 (2 ^ 64 - 4096) 1 := by decide +kernel

theorem topMapped_ok : ∃ T, TreeInv topMapped.mem (physOf 8192) T ∧
    Over smallMap [] topMapped {t | t ∈ T} ∧
    walk topMapped.mem (physOf 8192) (2 ^ 64 - 4096) = some 0x5001 := by
  have hal : alignDown (2 ^ 64 - 4096) 4096 = 2 ^ 64 - 4096 := by decide
  obtain ⟨s, hs, hG⟩ := rooted_step 0x5000 (2 ^ 64 - 4096) .kernelRead
    ⟨by norm_num, by norm_num, by norm_num⟩ (hal.symm ▸ top_served)
  have hm : s.machine = topMapped := hs.2.1
  obtain ⟨hI, hwalk⟩ := refines_step (refines_start (by decide) rooted_ok.2) hs
  rw [hm] at hI hG hwalk
  refine ⟨s.tables, hI, over_nil.mpr hG, (hwalk _).trans ?_⟩
  rw [next, Function.update_self]
  decide

/-- One of two mapped pages is unmapped, by a range inside it. -/
theorem unmaps_range_iff_rooted : ∃ s, Run (Step pmmSource 8192) ⟨rooted, [physOf 8192]⟩
    [.map 0x5000 0 .kernelRead, .map 0x6000 0x1000 .userReadWrite] s ∧
    walk s.machine.mem (physOf 8192) 0x1000 = some 0x6007 ∧ UnmapsRange 8192 0x1800 0x1fff s.machine := by
  obtain ⟨s₁, s₂, hr₁, hs₂, -, hG⟩ := mapped_step .kernelRead .userReadWrite rooted_served mapped_served
  have hrun := hr₁.append (.cons hs₂ .nil)
  obtain ⟨hI, hwalk⟩ := hrun.simulates (refines_start (by decide) rooted_ok.2)
    fun _ _ _ _ => refines_step
  exact ⟨s₂, hrun, (hwalk _).trans (by decide), (unmaps_range_iff smallMap_wellFormed smallMap_fits
    (by decide) hI (over_nil.mpr hG) (by norm_num) (by norm_num)).mpr (Or.inl (by norm_num))⟩

/-- **The topmost page is not unmapped** by a range that ends at `HIGHER_HALF_END`. -/
theorem top_page_stays : ¬ UnmapsRange 8192 (2 ^ 64 - 4096) (2 ^ 64 - 1) topMapped := by
  obtain ⟨T, -, -, hwalk⟩ := topMapped_ok
  rintro ⟨fuel, s', hrun, hnone, -⟩
  unfold vmmUnmapRange at hrun
  rw [alignUp_top (by norm_num) (by norm_num)] at hrun
  have hin : InRange (2 ^ 64 - 4096) (2 ^ 64 - 1) (2 ^ 64 - 4096) :=
    ⟨by norm_num, 2 ^ 64 - 4096, ⟨le_rfl, by norm_num⟩, le_rfl, by norm_num⟩
  have hgone := hnone _ hin
  rw [pageLoop_stop hrun, hwalk] at hgone
  exact Option.some_ne_none _ hgone

/-! ### Mapping a range -/

/-- The calls of `vmm_map_page` in `vmm_map_range`. -/
def pageOps (start endAddr offset : ℕ) (priv : MapPriv) : List VmmOp :=
  (List.range' (alignDown start 4096 / 4096) ((alignUp endAddr 4096 - alignDown start 4096) / 4096)).map
    fun k => .map (4096 * k) ((4096 * k + offset) % 2 ^ 64) priv

section Map
variable {offset j n start endAddr : ℕ} {priv : MapPriv} {space : ℕ → Option ℕ}

theorem pageNumber_inj (ho : offset % 4096 = 0) (hn : n ≤ 2 ^ 36) {k k' : ℕ} (h1 : j ≤ k) (h2 : k < j + n)
    (h1' : j ≤ k') (h2' : k' < j + n)
    (h : pageNumber ((4096 * k + offset) % 2 ^ 64) = pageNumber ((4096 * k' + offset) % 2 ^ 64)) :
    k = k' := by
  unfold pageNumber at h
  omega

theorem foldl_next_other {k : ℕ} {ops : List VmmOp} (h : ∀ o ∈ ops, pageNumber o.virt ≠ k) :
    ops.foldl next space k = space k := by
  induction ops generalizing space with
  | nil => rfl
  | cons o ops ih =>
    have ho := h o (List.mem_cons_self ..)
    rw [List.foldl_cons, ih fun o' ho' => h o' (List.mem_cons_of_mem _ ho')]
    cases o with
    | map phys virt priv => exact Function.update_of_ne (Ne.symm ho) _ _
    | unmap virt => exact Function.update_of_ne (Ne.symm ho) _ _

/-- **A range of maps**, each page for itself. -/
theorem foldl_next_range (ho : offset % 4096 = 0) (hn : n ≤ 2 ^ 36) {k : ℕ} (h1 : j ≤ k)
    (h2 : k < j + n) :
    ((List.range' j n).map fun k => VmmOp.map (4096 * k) ((4096 * k + offset) % 2 ^ 64) priv).foldl
      next space (pageNumber ((4096 * k + offset) % 2 ^ 64)) = some (4096 * k ||| priv.flags) := by
  induction n with
  | zero => omega
  | succ n ih =>
    rw [List.range'_concat, List.map_append, List.foldl_append, List.map_singleton, List.foldl_cons,
      List.foldl_nil, Nat.one_mul, next, Function.update_apply]
    by_cases hk : k = j + n
    · rw [hk, if_pos rfl]
    · rw [if_neg fun h => hk (pageNumber_inj ho hn h1 h2 (Nat.le_add_right _ _) (by omega) h)]
      exact ih (by omega) (by omega)

theorem walk_pageNumber {m : Mem} {root v w : ℕ} (h : pageNumber v = pageNumber w) :
    walk m root v = walk m root w := by
  obtain ⟨h1, h2⟩ := pageNumber_eq_iff.mp h
  rw [walk, walk, h1, h2]

variable {A : PageSource σ} {arena : Set ℕ} {Good : Machine σ → Set ℕ → Prop} {s : Machine σ} {tbl : ℕ}
  {T : List ℕ}

theorem pageOps_eq (offset : ℕ) (priv : MapPriv) (hse : start ≤ endAddr)
    (hend : endAddr ≤ 2 ^ 64 - 4096) :
    pageOps start endAddr offset priv =
      (List.range' (start / 4096) ((endAddr + 4095) / 4096 - start / 4096)).map
        fun k => .map (4096 * k) ((4096 * k + offset) % 2 ^ 64) priv := by
  obtain ⟨h1, h2, h3⟩ := bounds_eq hse hend
  unfold pageOps
  rw [h1, h2, Nat.mul_div_cancel_left _ (by norm_num), ← Nat.mul_sub,
    Nat.mul_div_cancel_left _ (by norm_num), Nat.add_sub_cancel_left]

/-- **`vmm_map_range` is a run of `vmm_map_page`**, and its loop ends. -/
theorem mapRange_run (s : Machine σ) (tbl offset : ℕ) (priv : MapPriv) (hse : start ≤ endAddr)
    (hend : endAddr ≤ 2 ^ 64 - 4096) :
    vmmMapRange A s tbl start endAddr offset priv.flags =
      (pageOps start endAddr offset priv).foldl (exec A tbl) s ∧
    ∀ fuel, (endAddr + 4095) / 4096 - start / 4096 < fuel →
      vmmMapRangeLoop A fuel s tbl start endAddr offset priv.flags =
        some ((pageOps start endAddr offset priv).foldl (exec A tbl) s) := by
  obtain ⟨h1, h2, h3⟩ := bounds_eq hse hend
  rw [pageOps_eq offset priv hse hend]
  refine ⟨?_, fun fuel hfuel => ?_⟩
  · unfold vmmMapRange
    rw [h1, h2, ← Nat.mul_sub, Nat.mul_div_cancel_left _ (by norm_num),
      Nat.add_sub_cancel_left, mapPages_eq]
  · unfold vmmMapRangeLoop
    rw [h1, h2, pageLoop_eq _ _ _ _ h3 hfuel, List.foldl_map]
    rfl

theorem mem_pages {i : ℕ} (hse : start ≤ endAddr) (hend : endAddr ≤ 2 ^ 64 - 4096) (hi : i % 4096 = 0) :
    alignDown start 4096 ≤ i ∧ i < alignUp endAddr 4096 ↔ start / 4096 ≤ i / 4096 ∧
      i / 4096 < start / 4096 + ((endAddr + 4095) / 4096 - start / 4096) := by
  obtain ⟨h1, h2, -⟩ := bounds_eq hse hend
  rw [h1, h2]
  omega

/-- **Mapping a range.** While the source is not exhausted, `vmm_map_range` returns, every page of
the range is mapped at its address plus the offset with the flags, and every page number that is not
hit keeps its translation. -/
theorem maps_range (hL : Lawful A arena Good) (hI : TreeInv s.mem (physOf tbl) T)
    (hG : Good s {t | t ∈ T}) (hse : start ≤ endAddr) (hend : endAddr ≤ 2 ^ 64 - 4096)
    (hlen : alignUp endAddr 4096 - alignDown start 4096 ≤ 2 ^ 48) (ho : offset % 4096 = 0)
    (hs : ServedAll A tbl s (pageOps start endAddr offset priv)) :
    ∃ fuel s', vmmMapRangeLoop A fuel s tbl start endAddr offset priv.flags = some s' ∧
      s' = vmmMapRange A s tbl start endAddr offset priv.flags ∧
      (∀ i, i % 4096 = 0 → alignDown start 4096 ≤ i → i < alignUp endAddr 4096 →
        walk s'.mem (physOf tbl) ((i + offset) % 2 ^ 64) = some (i ||| priv.flags)) ∧
      ∀ v, (∀ i, i % 4096 = 0 → alignDown start 4096 ≤ i → i < alignUp endAddr 4096 →
          pageNumber ((i + offset) % 2 ^ 64) ≠ pageNumber v) →
        walk s'.mem (physOf tbl) v = walk s.mem (physOf tbl) v := by
  obtain ⟨h1, h2, h3⟩ := bounds_eq hse hend
  obtain ⟨hrange, hloop⟩ := mapRange_run (A := A) s tbl offset priv hse hend
  set n := (endAddr + 4095) / 4096 - start / 4096 with hn
  have hn36 : n ≤ 2 ^ 36 := by
    rw [h1, h2] at hlen
    omega
  have hops := pageOps_eq offset priv hse hend
  have hvalid : ∀ o ∈ pageOps start endAddr offset priv, o.Valid := by
    intro o hmem
    rw [hops] at hmem
    obtain ⟨k, hk, rfl⟩ := List.mem_map.mp hmem
    have hk := (List.mem_range'_1.mp hk).2
    exact ⟨Nat.mul_mod_right _ _, by omega, Nat.mod_lt _ (by norm_num)⟩
  -- the address space before the call, by page numbers
  have hR : Refines tbl ⟨s, T⟩ fun k => walk s.mem (physOf tbl) (4096 * k) := by
    refine ⟨hI, fun v => walk_pageNumber ?_⟩
    unfold pageNumber
    omega
  obtain ⟨s', hm, ⟨-, hwalk⟩, -⟩ := run_of_served (s := ⟨s, T⟩) hL hvalid hR hG hs
  have hm : s'.machine = (pageOps start endAddr offset priv).foldl (exec A tbl) s := hm
  refine ⟨n + 1, s'.machine, by rw [hloop _ (Nat.lt_succ_self n), hm], by rw [hrange, hm],
    fun i hi hlo hhi => ?_, fun v hv => ?_⟩
  · obtain ⟨k, rfl⟩ := Nat.dvd_of_mod_eq_zero hi
    obtain ⟨hk1, hk2⟩ := (mem_pages hse hend hi).mp ⟨hlo, hhi⟩
    rw [Nat.mul_div_cancel_left _ (by norm_num)] at hk1 hk2
    rw [hwalk, hops, foldl_next_range ho hn36 hk1 hk2]
  · rw [hwalk, foldl_next_other fun o hmem => ?_]
    · refine walk_pageNumber ?_
      unfold pageNumber
      omega
    · rw [hops] at hmem
      obtain ⟨k, hk, rfl⟩ := List.mem_map.mp hmem
      have hk := List.mem_range'_1.mp hk
      have hin := (mem_pages (i := 4096 * k) hse hend (Nat.mul_mod_right _ _)).mpr (by omega)
      exact hv (4096 * k) (Nat.mul_mod_right _ _) hin.1 hin.2

end Map

/-- Two pages mapped at the start of the direct map. -/
theorem maps_range_rooted :
    walk (vmmMapRange pmmSource rooted 8192 0 4097 higherHalfData 3).mem (physOf 8192)
      (higherHalfData + 4096) =
      some (4096 ||| 3) := by
  have hserved : AllServed pmmSource rooted 8192
      (alignDown ((4096 * 0 + higherHalfData) % 2 ^ 64) 4096) 3 ∧
      AllServed pmmSource
        (exec pmmSource 8192 rooted (.map (4096 * 0) ((4096 * 0 + higherHalfData) % 2 ^ 64)
          .kernelReadWrite))
        8192 (alignDown ((4096 * 1 + higherHalfData) % 2 ^ 64) 4096) 3 := by
    decide +kernel
  have hops : pageOps 0 4097 higherHalfData .kernelReadWrite =
      [.map (4096 * 0) ((4096 * 0 + higherHalfData) % 2 ^ 64) .kernelReadWrite,
        .map (4096 * 1) ((4096 * 1 + higherHalfData) % 2 ^ 64) .kernelReadWrite] := by
    rw [pageOps_eq _ _ (by norm_num) (by norm_num)]
    rfl
  have hs : ServedAll pmmSource 8192 rooted (pageOps 0 4097 higherHalfData .kernelReadWrite) := by
    rw [hops]
    exact ⟨hserved.1, hserved.2, trivial⟩
  obtain ⟨-, s', -, rfl, hpages, -⟩ := maps_range smallMap_lawful (treeInv_zeroed (by decide) rooted_ok.2)
    rooted_ok.1 (by norm_num) (by norm_num) (by decide) (by decide) hs
  exact hpages 4096 (by norm_num) (by decide) (by decide)

end FusionCore.Mm.VirtRange
