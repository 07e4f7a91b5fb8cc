import FusionCore.Mm.VirtSpec

/-! # The page tables that `vmm_init` builds

`vmm_init` is a run of `vmm_map_page` (`initOps`), so that by the refinement of the page tables the
translation afterwards is what the last map for a page says. Every range it maps starts at physical
address 0 and lies in a window of page numbers of its own; only the direct map is written by several
ranges.

* `initSpace_identity`, `initSpace_heap`: the first 4 GiB at 0 and at the start of the heap.
* `direct_map_iff`: the direct map covers the memory map exactly if every entry ends below 4 GiB or
  below the length of some entry, since the ranges of the entries are mapped from 0 on and not from
  their base. -/

namespace FusionCore.Mm.VirtInit

open FusionCore.Lib.ByteMem FusionCore.Lib.Radix FusionCore.Lib.Runs FusionCore.Mm
open FusionCore.Mm.Defs FusionCore.Mm.Phys FusionCore.Mm.Pages FusionCore.Mm.PhysPages
open FusionCore.Mm.Virt FusionCore.Mm.VirtTree FusionCore.Mm.VirtSpec

variable {σ : Type}

/-! ### The calls of `vmm_init` -/

/-- The calls of `vmm_map_page` in `vmm_map_range` from 0 to `endAddr`. -/
def rangeOps (endAddr offset : ℕ) (priv : MapPriv) : List VmmOp :=
  (List.range (alignUp endAddr 4096 / 4096)).map fun k =>
    .map (4096 * k) ((4096 * k + offset) % 2 ^ 64) priv

/-- The calls of `vmm_map_page` in `vmm_init`. -/
def initOps (mmap : List MmapEntry) : List VmmOp :=
  rangeOps (4 * gib) 0 .kernelReadWrite ++ rangeOps (4 * gib) higherHalfData .kernelReadWrite ++
    rangeOps heapMaxSize heapStartAddr .kernelReadWrite ++
    rangeOps (2 * gib) higherHalfCode .kernelRead ++
    mmap.flatMap fun e => rangeOps e.length higherHalfData .kernelReadWrite

section Calls
variable {A : PageSource σ} {s : Machine σ} {tbl : ℕ}

theorem mapPages_eq (offset : ℕ) (priv : MapPriv) : ∀ (n j : ℕ) (s : Machine σ),
    mapPages A tbl offset priv.flags n (4096 * j) s =
      ((List.range' j n).map fun k => VmmOp.map (4096 * k) ((4096 * k + offset) % 2 ^ 64) priv).foldl
        (exec A tbl) s
  | 0, _, _ => rfl
  | n + 1, j, s => by
    rw [mapPages, List.range'_succ, List.map_cons, List.foldl_cons, ← mapPages_eq offset priv n (j + 1),
      show 4096 * j + 4096 = 4096 * (j + 1) by omega]
    rfl

theorem vmmMapRange_eq (endAddr offset : ℕ) (priv : MapPriv) :
    vmmMapRange A s tbl 0 endAddr offset priv.flags =
    (rangeOps endAddr offset priv).foldl (exec A tbl) s := by
  have h0 : alignDown 0 4096 = 4096 * 0 := by decide
  unfold vmmMapRange rangeOps
  rw [h0, mapPages_eq, List.range_eq_range', Nat.mul_zero, Nat.sub_zero]

/-- **`vmm_init` is a run of `vmm_map_page`.** -/
theorem vmmInit_eq {mmap : List MmapEntry} (hroot : physToHigherHalfData (A.allocz s).1 ≠ 0) :
    vmmInit A mmap s = some (physToHigherHalfData (A.allocz s).1,
      (initOps mmap).foldl (exec A (physToHigherHalfData (A.allocz s).1)) (A.allocz s).2) := by
  unfold vmmInit
  dsimp only
  rw [if_neg hroot, initOps]
  simp only [List.foldl_append, List.foldl_flatMap, vmmMapRange_eq]

end Calls

/-! ### Windows of page numbers -/

section Windows
variable {space : ℕ → Option ℕ} {endAddr offset b n : ℕ} {priv : MapPriv}

theorem pageNumber_add (ho : offset % 4096 = 0) (hb : offset / 4096 % 2 ^ 36 = b) (hn : b + n ≤ 2 ^ 36)
    {k : ℕ} (hk : k < n) : pageNumber ((4096 * k + offset) % 2 ^ 64) = b + k := by
  unfold pageNumber
  omega

/-- **A range of maps** sets the translations of its window. -/
theorem foldl_maps (ho : offset % 4096 = 0) (hb : offset / 4096 % 2 ^ 36 = b) (hn : b + n ≤ 2 ^ 36)
    (k : ℕ) :
    ((List.range n).map fun k => VmmOp.map (4096 * k) ((4096 * k + offset) % 2 ^ 64) priv).foldl
      next space k =
      if b ≤ k ∧ k < b + n then some (4096 * (k - b) ||| priv.flags) else space k := by
  induction n with
  | zero => rw [if_neg (by omega)]; rfl
  | succ n ih =>
    rw [List.range_succ, List.map_append, List.foldl_append, List.map_singleton, List.foldl_cons,
      List.foldl_nil, next, pageNumber_add ho hb hn (Nat.lt_succ_self n), Function.update_apply,
      ih (by omega)]
    by_cases hk : k = b + n
    · rw [if_pos hk, if_pos (by omega), hk, Nat.add_sub_cancel_left]
    · rw [if_neg hk]
      exact if_congr (by omega) rfl rfl

theorem foldl_rangeOps (ho : offset % 4096 = 0) (hb : offset / 4096 % 2 ^ 36 = b)
    (he : alignUp endAddr 4096 / 4096 = n) (hn : b + n ≤ 2 ^ 36) (k : ℕ) :
    (rangeOps endAddr offset priv).foldl next space k =
      if b ≤ k ∧ k < b + n then some (4096 * (k - b) ||| priv.flags) else space k := by
  unfold rangeOps
  rw [he]
  exact foldl_maps ho hb hn k

theorem hhd_window : higherHalfData % 4096 = 0 ∧ higherHalfData / 4096 % 2 ^ 36 = 2 ^ 35 := by
  unfold higherHalfData
  norm_num

theorem heap_window : heapStartAddr % 4096 = 0 ∧ heapStartAddr / 4096 % 2 ^ 36 = 2 ^ 35 + 2 ^ 32 := by
  unfold heapStartAddr
  norm_num

theorem code_window : higherHalfCode % 4096 = 0 ∧ higherHalfCode / 4096 % 2 ^ 36 = 2 ^ 36 - 2 ^ 19 := by
  unfold higherHalfCode
  norm_num

theorem pages_four_gib : alignUp (4 * gib) 4096 / 4096 = 2 ^ 20 := by decide

theorem pages_heap : alignUp heapMaxSize 4096 / 4096 = 2 ^ 20 := by decide

theorem pages_two_gib : alignUp (2 * gib) 4096 / 4096 = 2 ^ 19 := by decide

end Windows

/-! ### The address space -/

section Space
variable {mmap : List MmapEntry} {space : ℕ → Option ℕ}

/-- The memory map ends below 16 TiB. -/
def Below16TiB (mmap : List MmapEntry) : Prop := ∀ e ∈ mmap, e.base + e.length ≤ 2 ^ 44

/-- No entry is longer than 16 TiB. -/
def ShortEntries (mmap : List MmapEntry) : Prop := ∀ e ∈ mmap, e.length ≤ 2 ^ 44

theorem Below16TiB.short (h : Below16TiB mmap) : ShortEntries mmap := fun e he => by
  have := h e he
  omega

theorem ShortEntries.placeBitmap {size : ℕ} (h : ShortEntries mmap) :
    ShortEntries (placeBitmap size mmap).2 := by
  induction mmap with
  | nil => exact h
  | cons e mmap ih =>
    have he := h e (List.mem_cons_self ..)
    have hrest : ShortEntries mmap := fun f hf => h f (List.mem_cons_of_mem _ hf)
    rw [Phys.placeBitmap]
    split_ifs
    · intro f hf
      rcases List.mem_cons.mp hf with rfl | hf
      · exact (Nat.sub_le _ _).trans he
      · exact hrest f hf
    · intro f hf
      rcases List.mem_cons.mp hf with rfl | hf
      · exact he
      · exact ih hrest f hf

theorem pages_length_le (h : ShortEntries mmap) {e : MmapEntry} (he : e ∈ mmap) :
    alignUp e.length 4096 / 4096 ≤ 2 ^ 32 := by
  have hlen := h e he
  rw [alignUp_page (by omega)]
  omega

/-- The page `j` of the direct map is mapped by one of the ranges of the entries. -/
def InLengths (mmap : List MmapEntry) (j : ℕ) : Prop := ∃ e ∈ mmap, j < alignUp e.length 4096 / 4096

instance (mmap : List MmapEntry) (j : ℕ) : Decidable (InLengths mmap j) := by
  unfold InLengths; infer_instance

/-- **The loop over the entries** maps pages of the direct map. -/
theorem foldl_entries (h : ShortEntries mmap) (k : ℕ) :
    (mmap.flatMap fun e => rangeOps e.length higherHalfData .kernelReadWrite).foldl next space k =
      if 2 ^ 35 ≤ k ∧ InLengths mmap (k - 2 ^ 35) then
        some (4096 * (k - 2 ^ 35) ||| MapPriv.kernelReadWrite.flags)
      else space k := by
  induction mmap generalizing space with
  | nil => rw [if_neg (by simp [InLengths])]; rfl
  | cons e mmap ih =>
    have hle := pages_length_le h (List.mem_cons_self ..)
    rw [List.flatMap_cons, List.foldl_append, ih fun f hf => h f (List.mem_cons_of_mem _ hf),
      foldl_rangeOps hhd_window.1 hhd_window.2 rfl (by omega)]
    have hcons : InLengths (e :: mmap) (k - 2 ^ 35) ↔
        k - 2 ^ 35 < alignUp e.length 4096 / 4096 ∨ InLengths mmap (k - 2 ^ 35) := by
      simp [InLengths]
    by_cases h1 : 2 ^ 35 ≤ k ∧ InLengths mmap (k - 2 ^ 35)
    · rw [if_pos h1, if_pos ⟨h1.1, hcons.mpr (Or.inr h1.2)⟩]
    · rw [if_neg h1]
      refine if_congr ⟨fun h2 => ⟨h2.1, hcons.mpr (Or.inl (by omega))⟩, fun h2 => ⟨h2.1, ?_⟩⟩ rfl rfl
      rcases hcons.mp h2.2 with h3 | h3
      · omega
      · exact absurd ⟨h2.1, h3⟩ h1

/-- The translations after `vmm_init`. -/
def initSpace (mmap : List MmapEntry) : ℕ → Option ℕ := (initOps mmap).foldl next fun _ => none

/-- **The address space of `vmm_init`**: the identity window, the direct map, the heap and the code. -/
theorem initSpace_eq (h : ShortEntries mmap) (k : ℕ) : initSpace mmap k =
    if 2 ^ 35 ≤ k ∧ InLengths mmap (k - 2 ^ 35) then
      some (4096 * (k - 2 ^ 35) ||| MapPriv.kernelReadWrite.flags)
    else if 2 ^ 36 - 2 ^ 19 ≤ k ∧ k < 2 ^ 36 - 2 ^ 19 + 2 ^ 19 then
      some (4096 * (k - (2 ^ 36 - 2 ^ 19)) ||| MapPriv.kernelRead.flags)
    else if 2 ^ 35 + 2 ^ 32 ≤ k ∧ k < 2 ^ 35 + 2 ^ 32 + 2 ^ 20 then
      some (4096 * (k - (2 ^ 35 + 2 ^ 32)) ||| MapPriv.kernelReadWrite.flags)
    else if 2 ^ 35 ≤ k ∧ k < 2 ^ 35 + 2 ^ 20 then
      some (4096 * (k - 2 ^ 35) ||| MapPriv.kernelReadWrite.flags)
    else if 0 ≤ k ∧ k < 0 + 2 ^ 20 then some (4096 * (k - 0) ||| MapPriv.kernelReadWrite.flags)
    else none := by
  unfold initSpace initOps
  rw [List.foldl_append, List.foldl_append, List.foldl_append, List.foldl_append, foldl_entries h,
    foldl_rangeOps code_window.1 code_window.2 pages_two_gib (by norm_num),
    foldl_rangeOps heap_window.1 heap_window.2 pages_heap (by norm_num),
    foldl_rangeOps hhd_window.1 hhd_window.2 pages_four_gib (by norm_num),
    foldl_rangeOps (b := 0) (by norm_num) (by norm_num) pages_four_gib (by norm_num)]

theorem initSpace_identity (h : ShortEntries mmap) {k : ℕ} (hk : k < 2 ^ 20) :
    initSpace mmap k = some (4096 * k ||| MapPriv.kernelReadWrite.flags) := by
  rw [initSpace_eq h, if_neg (by omega), if_neg (by omega), if_neg (by omega), if_neg (by omega),
    if_pos (by omega), Nat.sub_zero]

theorem initSpace_heap (h : ShortEntries mmap) {k : ℕ} (hk : k < 2 ^ 20) :
    initSpace mmap (2 ^ 35 + 2 ^ 32 + k) = some (4096 * k ||| MapPriv.kernelReadWrite.flags) := by
  have hnot : ¬ (2 ^ 35 ≤ 2 ^ 35 + 2 ^ 32 + k ∧ InLengths mmap (2 ^ 35 + 2 ^ 32 + k - 2 ^ 35)) := by
    rintro ⟨-, e, he, hlt⟩
    have := pages_length_le h he
    omega
  rw [initSpace_eq h, if_neg hnot, if_neg (by omega), if_pos (by omega), Nat.add_sub_cancel_left]

theorem initSpace_above (h : ShortEntries mmap) {k : ℕ} (h1 : 2 ^ 20 ≤ k) (h2 : k < 2 ^ 35) :
    initSpace mmap k = none := by
  rw [initSpace_eq h, if_neg (by omega), if_neg (by omega), if_neg (by omega), if_neg (by omega),
    if_neg (by omega)]

theorem initSpace_direct (h : ShortEntries mmap) {j : ℕ} (hj : j < 2 ^ 32) :
    initSpace mmap (2 ^ 35 + j) =
      if j < 2 ^ 20 ∨ InLengths mmap j then some (4096 * j ||| MapPriv.kernelReadWrite.flags)
      else none := by
  have hsub : 2 ^ 35 + j - 2 ^ 35 = j := Nat.add_sub_cancel_left ..
  rw [initSpace_eq h, hsub]
  by_cases h1 : InLengths mmap j
  · rw [if_pos ⟨Nat.le_add_right _ _, h1⟩, if_pos (Or.inr h1)]
  · rw [if_neg fun hc => h1 hc.2, if_neg (by omega), if_neg (by omega)]
    by_cases h2 : j < 2 ^ 20
    · rw [if_pos (by omega), if_pos (Or.inl h2)]
    · rw [if_neg (by omega), if_neg (by omega), if_neg fun hc => hc.elim h2 h1]

end Space

/-! ### The run -/

/-- No `pmm_allocz(1)` in a list of calls returns NULL. -/
def ServedAll (A : PageSource σ) (tbl : ℕ) : Machine σ → List VmmOp → Prop
  | _, [] => True
  | s, o :: ops => AllServed A s tbl (alignDown o.virt 4096) o.flags ∧
      ServedAll A tbl (exec A tbl s o) ops

/-- No `pmm_allocz(1)` in `vmm_init` returns NULL. -/
def InitServed (A : PageSource σ) (mmap : List MmapEntry) (s : Machine σ) : Prop :=
  (A.allocz s).1 ≠ 0 ∧
    ServedAll A (physToHigherHalfData (A.allocz s).1) (A.allocz s).2 (initOps mmap)

theorem root_ok {p : ℕ} (hp : p < 2 ^ 44) :
    physToHigherHalfData p ≠ 0 ∧ physOf (physToHigherHalfData p) = p := by
  have hmod : physToHigherHalfData p = p + higherHalfData :=
    Nat.mod_eq_of_lt (by unfold higherHalfData; omega)
  have hpos : 0 < higherHalfData := by unfold higherHalfData; norm_num
  rw [hmod]
  refine ⟨by omega, ?_⟩
  unfold physOf
  rw [if_pos (Nat.le_add_left _ _), Nat.add_sub_cancel]

theorem valid_rangeOps (endAddr offset : ℕ) (priv : MapPriv) :
    ∀ o ∈ rangeOps endAddr offset priv, o.Valid := by
  intro o ho
  obtain ⟨k, hk, rfl⟩ := List.mem_map.mp ho
  have hk := List.mem_range.mp hk
  have hlt : (endAddr + 4095) % 2 ^ 64 < 2 ^ 64 := Nat.mod_lt _ (by norm_num)
  rw [alignUp_mod, Nat.mul_div_cancel _ (by norm_num)] at hk
  exact ⟨Nat.mul_mod_right _ _, by omega, Nat.mod_lt _ (by norm_num)⟩

theorem mem_initOps {mmap : List MmapEntry} {o : VmmOp} (ho : o ∈ initOps mmap) :
    o ∈ rangeOps (4 * gib) 0 .kernelReadWrite ∨ o ∈ rangeOps (4 * gib) higherHalfData .kernelReadWrite ∨
      o ∈ rangeOps heapMaxSize heapStartAddr .kernelReadWrite ∨
      o ∈ rangeOps (2 * gib) higherHalfCode .kernelRead ∨
      ∃ e ∈ mmap, o ∈ rangeOps e.length higherHalfData .kernelReadWrite := by
  rw [initOps] at ho
  simp only [List.mem_append, List.mem_flatMap, or_assoc] at ho
  exact ho

theorem initOps_map {mmap : List MmapEntry} :
    ∀ o ∈ initOps mmap, o.Valid ∧ ∃ phys virt priv, o = .map phys virt priv := by
  have hrange : ∀ endAddr offset priv, ∀ o ∈ rangeOps endAddr offset priv,
      o.Valid ∧ ∃ phys virt priv, o = .map phys virt priv := by
    intro endAddr offset priv o ho
    refine ⟨valid_rangeOps _ _ _ o ho, ?_⟩
    obtain ⟨k, -, rfl⟩ := List.mem_map.mp ho
    exact ⟨_, _, _, rfl⟩
  intro o ho
  rcases mem_initOps ho with ho | ho | ho | ho | ⟨e, -, ho⟩ <;> exact hrange _ _ _ o ho

-- There are millions of calls: the list is not to be evaluated.
attribute [irreducible] initOps

section Served
variable {A : PageSource σ} {arena : Set ℕ} {Good : Machine σ → Set ℕ → Prop} {tbl : ℕ}
  {mmap : List MmapEntry} {s : Machine σ} (hL : Lawful A arena Good)
include hL

/-- **Calls that are served make a run.** -/
theorem run_of_served {ops : List VmmOp} {s : VmmState σ} {space : ℕ → Option ℕ} (hv : ∀ o ∈ ops, o.Valid)
    (hR : Refines tbl s space) (hG : Good s.machine {t | t ∈ s.tables})
    (hs : ServedAll A tbl s.machine ops) :
    ∃ s', s'.machine = ops.foldl (exec A tbl) s.machine ∧ Refines tbl s' (ops.foldl next space) ∧
      Good s'.machine {t | t ∈ s'.tables} := by
  induction ops generalizing s space with
  | nil => exact ⟨s, rfl, hR, hG⟩
  | cons o ops ih =>
    obtain ⟨ho, hs⟩ := hs
    obtain ⟨s₁, hs₁, hG₁⟩ := step_of_lawful hL hR.1 hG (hv o (by simp)) ho
    have hm : s₁.machine = exec A tbl s.machine o := hs₁.2.1
    obtain ⟨s', h1, h2, h3⟩ := ih (fun o ho => hv o (by simp [ho])) (refines_step hR hs₁) hG₁ (hm ▸ hs)
    exact ⟨s', by rw [h1, hm]; rfl, h2, h3⟩

/-- **What `vmm_init` builds**, while the source is not exhausted. -/
theorem vmmInit_spec (hlow : ∀ p ∈ arena, p < 2 ^ 44) (hG : Good s ∅) (hs : InitServed A mmap s) :
    ∃ root s', vmmInit A mmap s = some (root, s'.machine) ∧ Refines root s' (initSpace mmap) ∧
      Good s'.machine {t | t ∈ s'.tables} := by
  obtain ⟨h0, hs⟩ := hs
  obtain ⟨-, hz, -, hG₁⟩ := hL.alloc hG h0
  have hmem := hL.handed hG₁ (Set.mem_insert _ _)
  obtain ⟨hroot0, hphys⟩ := root_ok (hlow _ hmem)
  rw [vmmInit_eq hroot0]
  generalize physToHigherHalfData (A.allocz s).1 = root at hs hphys ⊢
  rw [← hphys] at hz hG₁ hmem
  have hset : insert (physOf root) (∅ : Set ℕ) = {t | t ∈ [physOf root]} := by
    ext t
    simp
  rw [hset] at hG₁
  have hv : ∀ o ∈ initOps mmap, o.Valid := fun o ho => (initOps_map o ho).1
  unfold initSpace
  generalize initOps mmap = ops at hs hv ⊢
  obtain ⟨s', h1, h2, h3⟩ := run_of_served (s := ⟨(A.allocz s).2, [physOf root]⟩) hL hv
    (refines_start (hL.pages hmem).1 hz) hG₁ hs
  exact ⟨root, s', by rw [h1], h2, h3⟩

end Served

/-! ### The direct map -/

/-- **The direct map covers the memory map**: every frame that meets an entry is mapped at
`HIGHER_HALF_DATA` plus its address. -/
def DirectMapped (m : Mem) (root : ℕ) (mmap : List MmapEntry) : Prop :=
  ∀ e ∈ mmap, ∀ p, p % 4096 = 0 → (page p ∩ PhysInit.range e).Nonempty →
    walk m (physOf root) (higherHalfData + p) = some (p ||| MapPriv.kernelReadWrite.flags)

/-- Every entry ends below 4 GiB or below the length of some entry, rounded up to pages. -/
def LengthsReach (mmap : List MmapEntry) : Prop :=
  ∀ e ∈ mmap, 0 < e.length →
    e.base + e.length ≤ 4 * gib ∨ ∃ f ∈ mmap, e.base + e.length ≤ alignUp f.length 4096

theorem pageNumber_direct {j : ℕ} (hj : j < 2 ^ 32) :
    pageNumber (higherHalfData + 4096 * j) = 2 ^ 35 + j := by
  unfold pageNumber higherHalfData
  omega

theorem alignUp_mul (a : ℕ) : alignUp a 4096 / 4096 * 4096 = alignUp a 4096 := by
  rw [alignUp_mod, Nat.mul_div_cancel _ (by norm_num)]

theorem reach_iff {mmap : List MmapEntry} :
    (∀ e ∈ mmap, ∀ j, (page (4096 * j) ∩ PhysInit.range e).Nonempty → j < 2 ^ 20 ∨ InLengths mmap j) ↔
      LengthsReach mmap := by
  have hg : 4 * gib = 4096 * 2 ^ 20 := by decide
  refine ⟨fun h e he hpos => ?_, fun h e he j hne => ?_⟩
  · -- the frame of the last byte
    have hx : e.base + e.length - 1 ∈ page (4096 * ((e.base + e.length - 1) / 4096)) ∩
        PhysInit.range e := by
      simp only [PhysInit.range, Set.mem_inter_iff, mem_page, Set.mem_Ico]
      omega
    rcases h e he _ ⟨_, hx⟩ with hj | ⟨f, hf, hj⟩
    · exact Or.inl (by omega)
    · have := alignUp_mul f.length
      exact Or.inr ⟨f, hf, by omega⟩
  · obtain ⟨x, hx1, hx2⟩ := hne
    simp only [PhysInit.range, mem_page, Set.mem_Ico] at hx1 hx2
    rcases h e he (by omega) with hle | ⟨f, hf, hle⟩
    · exact Or.inl (by omega)
    · have := alignUp_mul f.length
      exact Or.inr ⟨f, hf, by omega⟩

section Direct
variable {A : PageSource σ} {arena : Set ℕ} {Good : Machine σ → Set ℕ → Prop} {mmap : List MmapEntry}
  {s : Machine σ} (hL : Lawful A arena Good)
include hL

/-- **The direct map.** While the source is not exhausted, `vmm_init` maps every frame of the memory map
exactly if every entry ends below 4 GiB or below the length of some entry. -/
theorem direct_map_iff (hlow : ∀ p ∈ arena, p < 2 ^ 44) (hG : Good s ∅) (hb : Below16TiB mmap)
    (hs : InitServed A mmap s) :
    ∃ root s', vmmInit A mmap s = some (root, s') ∧
    (DirectMapped s'.mem root mmap ↔ LengthsReach mmap) := by
  obtain ⟨root, s', hok, hR, -⟩ := vmmInit_spec hL hlow hG hs
  refine ⟨root, s'.machine, hok, ?_⟩
  have hwalk : ∀ j < 2 ^ 32, (walk s'.machine.mem (physOf root) (higherHalfData + 4096 * j) =
      some (4096 * j ||| MapPriv.kernelReadWrite.flags) ↔ j < 2 ^ 20 ∨ InLengths mmap j) := by
    intro j hj
    rw [hR.2, pageNumber_direct hj, initSpace_direct hb.short hj]
    split_ifs with hc
    · exact iff_of_true rfl hc
    · exact iff_of_false (by simp) hc
  -- a frame that meets an entry lies below 16 TiB
  have hframe : ∀ e ∈ mmap, ∀ j, (page (4096 * j) ∩ PhysInit.range e).Nonempty → j < 2 ^ 32 := by
    rintro e he j ⟨x, hx1, hx2⟩
    have := hb e he
    simp only [PhysInit.range, mem_page, Set.mem_Ico] at hx1 hx2
    omega
  rw [← reach_iff]
  constructor
  · intro h e he j hne
    exact (hwalk j (hframe e he j hne)).mp (h e he _ (Nat.mul_mod_right _ _) hne)
  · intro h e he p hp hne
    obtain ⟨j, rfl⟩ := Nat.dvd_of_mod_eq_zero hp
    exact (hwalk j (hframe e he j hne)).mpr (h e he j hne)

end Direct

/-! ### How many pages `vmm_init` needs -/

/-- The page table a call writes to: the page number without its last digit. -/
def block (o : VmmOp) : ℕ := pageNumber o.virt / 512

theorem path_eq_of_block {v w : ℕ} (h : pageNumber v / 512 = pageNumber w / 512) : path v = path w := by
  have hlt : ∀ s, (index v s : ℕ) < 512 ∧ (index w s : ℕ) < 512 :=
    fun s => ⟨(index v s).isLt, (index w s).isLt⟩
  have h1 := hlt 12
  have h2 := hlt 21
  have h3 := hlt 30
  have h4 := hlt 39
  rw [pageNumber_digits, pageNumber_digits] at h
  simp only [path, List.cons.injEq, Fin.ext_iff, and_true]
  omega

section Room
variable {A : PageSource σ} {tbl f : ℕ} {s : VmmState σ} {v : ℕ}

/-- **A call for a page whose page table is there** allocates nothing. -/
theorem complete_served {t : ℕ} (hI : TreeInv s.machine.mem (physOf tbl) s.tables) (hv : v < 2 ^ 64)
    (hfol : follow (presentAt s.machine.mem) tableOf (physOf tbl) (path v) = some t) :
    AllServed A s.machine tbl (alignDown v 4096) f ∧
      ∀ T, CallsFresh A s tbl (alignDown v 4096) f T → T = s.tables := by
  obtain ⟨h1, -, -, h2⟩ := descend_present (A := A) (f := f) (p := []) hI (by simp) rfl hfol
  exact ⟨(allServed_iff hv).mpr h1, fun T hT => h2 T ((callsFresh_iff hv).mp hT)⟩

variable {arena : Set ℕ} {Good : Machine σ → Set ℕ → Prop} (hL : Lawful A arena Good) {N : ℕ}
  (hroom : ∀ (m : Machine σ) (T : List ℕ), Good m {t | t ∈ T} → T.length < N → (A.allocz m).1 ≠ 0)
include hL hroom

theorem served_along_of_room {p q : List (Fin 512)} {r : ℕ × Machine σ} {root : ℕ} {T : List ℕ}
    (hlen : p.length + q.length ≤ 3) (hI : TreeInv r.2.mem root T) (hG : Good r.2 {t | t ∈ T})
    (hat : Reaches f r.2.mem root T p r.1) (hN : T.length + q.length ≤ N) : ServedAlong A f q r := by
  induction q generalizing p T r with
  | nil => exact trivial
  | cons i q ih =>
    obtain ⟨hp, hlen⟩ := length_level hlen
    rw [List.length_cons] at hN
    have hs : Served A r.2 r.1 i := fun _ => hroom _ _ hG (by omega)
    obtain ⟨T₁, hc, hG₁⟩ := creates_of_lawful (f := f) hL hG (hat.mem hI hp.le) hs
    obtain ⟨hI₁, hat₁⟩ := hat.down hI hp hc
    have hl := creates_length hc
    exact ⟨hs, ih hlen hI₁ hG₁ hat₁ (by omega)⟩

theorem allServed_of_room {o : VmmOp} (hI : TreeInv s.machine.mem (physOf tbl) s.tables)
    (hG : Good s.machine {t | t ∈ s.tables}) (hv : o.Valid) (hlen : s.tables.length + 3 ≤ N) :
    AllServed A s.machine tbl (alignDown o.virt 4096) o.flags :=
  (allServed_iff hv.virt_lt).mpr
    (served_along_of_room hL hroom (p := []) (by simp [path]) hI hG o.reaches_root hlen)

/-- **Maps to few page tables are served.** `B` are page tables that are there; each of the others
needs at most three pages, once. -/
theorem served_of_room {ops : List VmmOp} {space : ℕ → Option ℕ} (B : Finset ℕ)
    (hmap : ∀ o ∈ ops, o.Valid ∧ ∃ phys virt priv, o = .map phys virt priv)
    (hR : Refines tbl s space) (hG : Good s.machine {t | t ∈ s.tables})
    (hB : ∀ b ∈ B, ∃ w, pageNumber w / 512 = b ∧ space (pageNumber w) ≠ none)
    (hlen : s.tables.length ≤ 1 + 3 * B.card) (hN : 1 + 3 * (B ∪ (ops.map block).toFinset).card ≤ N) :
    ServedAll A tbl s.machine ops ∧ ∃ T : List ℕ, T.length ≤ N ∧
      Refines tbl ⟨ops.foldl (exec A tbl) s.machine, T⟩ (ops.foldl next space) ∧
      Good (ops.foldl (exec A tbl) s.machine) {t | t ∈ T} := by
  induction ops generalizing s space B with
  | nil =>
    rw [List.map_nil, List.toFinset_nil, Finset.union_empty] at hN
    exact ⟨trivial, s.tables, hlen.trans hN, hR, hG⟩
  | cons o ops ih =>
    obtain ⟨hv, phys, virt, priv, rfl⟩ := hmap o (by simp)
    have hblocks : (insert (block (.map phys virt priv)) B ∪ (ops.map block).toFinset).card =
        (B ∪ ((VmmOp.map phys virt priv :: ops).map block).toFinset).card := by
      rw [List.map_cons, List.toFinset_cons, Finset.insert_union, Finset.union_insert]
    -- what the call leaves mapped
    have hspace : ∀ k, space k ≠ none → next space (.map phys virt priv) k ≠ none := by
      intro k hk
      simp only [next, Function.update_apply]
      split_ifs
      · simp
      · exact hk
    have hnew : next space (.map phys virt priv) (pageNumber virt) ≠ none := by simp [next]
    have hrest : ∀ s₁ (B' : Finset ℕ), Step A tbl s (.map phys virt priv) s₁ →
        Good s₁.machine {t | t ∈ s₁.tables} → B' ⊆ insert (block (.map phys virt priv)) B →
        s₁.tables.length ≤ 1 + 3 * B'.card →
        ServedAll A tbl (exec A tbl s.machine (.map phys virt priv)) ops ∧ ∃ T : List ℕ, T.length ≤ N ∧
          Refines tbl ⟨ops.foldl (exec A tbl) (exec A tbl s.machine (.map phys virt priv)), T⟩
            (ops.foldl next (next space (.map phys virt priv))) ∧
          Good (ops.foldl (exec A tbl) (exec A tbl s.machine (.map phys virt priv))) {t | t ∈ T} := by
      intro s₁ B' hs₁ hG₁ hB' hlen'
      rw [← hs₁.2.1]
      refine ih B' (fun o ho => hmap o (by simp [ho])) (refines_step hR hs₁) hG₁ (fun b hb => ?_) hlen' ?_
      · rcases Finset.mem_insert.mp (hB' hb) with rfl | hb
        · exact ⟨virt, rfl, hnew⟩
        · obtain ⟨w, hw, hw'⟩ := hB b hb
          exact ⟨w, hw, hspace _ hw'⟩
      · have := Finset.card_le_card (Finset.union_subset_union_left (t := (ops.map block).toFinset) hB')
        omega
    by_cases hb : block (.map phys virt priv) ∈ B
    · -- the page table is there
      obtain ⟨w, hw, hw'⟩ := hB _ hb
      obtain ⟨e, he⟩ := Option.ne_none_iff_exists'.mp hw'
      have hwalk : walk s.machine.mem (physOf tbl) w = some e := (hR.2 w).trans he
      unfold walk lookup at hwalk
      obtain ⟨t, ht, -⟩ := Option.bind_eq_some_iff.mp hwalk
      rw [path_eq_of_block hw] at ht
      obtain ⟨hserved, hsame⟩ := complete_served (A := A) (f := priv.flags) hR.1 hv.virt_lt ht
      obtain ⟨s₁, hs₁, hG₁⟩ := step_of_lawful hL hR.1 hG hv hserved
      have htab : s₁.tables = s.tables := hsame _ hs₁.2.2
      obtain ⟨h1, h2⟩ := hrest s₁ B hs₁ hG₁ (Finset.subset_insert _ _) (by rw [htab]; exact hlen)
      exact ⟨⟨hserved, h1⟩, h2⟩
    · have hcard := Finset.card_insert_of_notMem hb
      have hle : (insert (block (.map phys virt priv)) B).card ≤
          (B ∪ ((VmmOp.map phys virt priv :: ops).map block).toFinset).card := by
        rw [← hblocks]
        exact Finset.card_le_card Finset.subset_union_left
      have hserved := allServed_of_room hL hroom hR.1 hG hv (by omega)
      obtain ⟨s₁, hs₁, hG₁⟩ := step_of_lawful hL hR.1 hG hv hserved
      have hlen₁ : s₁.tables.length ≤ s.tables.length + 3 :=
        ((callsFresh_iff hv.virt_lt).mp hs₁.2.2).length_le
      obtain ⟨h1, h2⟩ := hrest s₁ _ hs₁ hG₁ subset_rfl (by omega)
      exact ⟨⟨hserved, h1⟩, h2⟩

end Room

/-! ### The page tables of `vmm_init` -/

section Blocks
variable {endAddr offset b n : ℕ} {priv : MapPriv} {mmap : List MmapEntry}

theorem block_rangeOps (ho : offset % 4096 = 0) (hb : offset / 4096 % 2 ^ 36 = b)
    (he : alignUp endAddr 4096 / 4096 ≤ n) (hn : b + n ≤ 2 ^ 36) :
    ∀ o ∈ rangeOps endAddr offset priv, block o ∈ Finset.Ico (b / 512) ((b + n + 511) / 512) := by
  intro o hmem
  obtain ⟨k, hk, rfl⟩ := List.mem_map.mp hmem
  have hk := List.mem_range.mp hk
  rw [Finset.mem_Ico, block, VmmOp.virt, pageNumber_add ho hb hn (by omega)]
  omega

/-- **`vmm_init` needs 7168 page tables** if no entry is longer than 4 GiB. -/
theorem card_blocks_le (h : ∀ e ∈ mmap, alignUp e.length 4096 / 4096 ≤ 2 ^ 20) :
    ((initOps mmap).map block).toFinset.card ≤ 7168 := by
  have hsub : ((initOps mmap).map block).toFinset ⊆
      Finset.Ico 0 2048 ∪ Finset.Ico (2 ^ 26) (2 ^ 26 + 2048) ∪
        Finset.Ico (2 ^ 26 + 2 ^ 23) (2 ^ 26 + 2 ^ 23 + 2048) ∪ Finset.Ico (2 ^ 27 - 1024) (2 ^ 27) := by
    intro x hx
    obtain ⟨o, ho, rfl⟩ := List.mem_map.mp (List.mem_toFinset.mp hx)
    simp only [Finset.mem_union]
    rcases mem_initOps ho with ho | ho | ho | ho | ⟨e, he, ho⟩
    · exact Or.inl (Or.inl (Or.inl (block_rangeOps (b := 0) (by norm_num) (by norm_num) pages_four_gib.le
        (by norm_num) o ho)))
    · exact Or.inl (Or.inl (Or.inr (block_rangeOps hhd_window.1 hhd_window.2 pages_four_gib.le
        (by norm_num) o ho)))
    · exact Or.inl (Or.inr (block_rangeOps heap_window.1 heap_window.2 pages_heap.le (by norm_num) o ho))
    · exact Or.inr (block_rangeOps code_window.1 code_window.2 pages_two_gib.le (by norm_num) o ho)
    · exact Or.inl (Or.inl (Or.inr (block_rangeOps hhd_window.1 hhd_window.2 (h e he)
        (by norm_num) o ho)))
  calc ((initOps mmap).map block).toFinset.card
      ≤ _ := Finset.card_le_card hsub
    _ ≤ 2048 + 2048 + 2048 + 1024 :=
      (Finset.card_union_le _ _).trans (Nat.add_le_add ((Finset.card_union_le _ _).trans
        (Nat.add_le_add ((Finset.card_union_le _ _).trans (Nat.add_le_add ?_ ?_)) ?_)) ?_)
    _ = 7168 := rfl
  all_goals exact (Nat.card_Ico _ _).trans_le (by norm_num)

/-- **A source with 21505 pages** serves `vmm_init` on such a map. -/
theorem vmmInit_of_room {A : PageSource σ} {arena : Set ℕ} {Good : Machine σ → Set ℕ → Prop}
    {s : Machine σ} (hL : Lawful A arena Good) (hlow : ∀ p ∈ arena, p < 2 ^ 44) (hG : Good s ∅)
    (hroom : ∀ (m : Machine σ) (T : List ℕ), Good m {t | t ∈ T} → T.length < 21505 → (A.allocz m).1 ≠ 0)
    (h : ∀ e ∈ mmap, alignUp e.length 4096 / 4096 ≤ 2 ^ 20) :
    InitServed A mmap s ∧ ∃ root s', vmmInit A mmap s = some (root, s') ∧
      ∃ T : List ℕ, T.length ≤ 21505 ∧ Refines root ⟨s', T⟩ (initSpace mmap) ∧ Good s' {t | t ∈ T} := by
  have h0 : (A.allocz s).1 ≠ 0 := hroom s [] (by simpa using hG) (by simp only [List.length_nil]; omega)
  obtain ⟨-, hz, -, hG₁⟩ := hL.alloc hG h0
  have hmem := hL.handed hG₁ (Set.mem_insert _ _)
  obtain ⟨hroot0, hphys⟩ := root_ok (hlow _ hmem)
  rw [vmmInit_eq hroot0]
  unfold InitServed initSpace
  generalize physToHigherHalfData (A.allocz s).1 = root at hphys ⊢
  rw [← hphys] at hz hG₁ hmem
  have hset : insert (physOf root) (∅ : Set ℕ) = {t | t ∈ [physOf root]} := by
    ext t
    simp
  rw [hset] at hG₁
  have hcard := card_blocks_le h
  have hmap : ∀ o ∈ initOps mmap, o.Valid ∧ ∃ phys virt priv, o = .map phys virt priv := initOps_map
  generalize initOps mmap = ops at hcard hmap ⊢
  have hN : 1 + 3 * (∅ ∪ (ops.map block).toFinset).card ≤ 21505 := by
    rw [Finset.empty_union]
    omega
  obtain ⟨hs, hT⟩ := served_of_room (s := ⟨(A.allocz s).2, [physOf root]⟩) hL hroom ∅ hmap
    (refines_start (hL.pages hmem).1 hz) hG₁ (by simp) (by simp) hN
  exact ⟨⟨h0, hs⟩, root, _, rfl, hT⟩

end Blocks

/-! ### 128 MiB -/

/-- A map with 28672 pages marked free from `lo` on. -/
structure Boots (mmap : List MmapEntry) (lo : ℕ) : Prop where
  wellFormed : PhysInit.WellFormed mmap
  fits : PhysInit.Fits mmap
  home : PhysInit.homeBase mmap ≠ 0
  marked : ∀ i, lo ≤ i → i < lo + 28672 → PhysInit.MarkedFree mmap i

theorem boots_of_entry {mmap : List MmapEntry} {e : MmapEntry} (hw : PhysInit.WellFormed mmap)
    (hf : PhysInit.Fits mmap) (he : e ∈ mmap) (hu : e.type = .usable) (hbase : e.base % 4096 = 0)
    (hlen : (28672 + 64) * 4096 ≤ e.length) (h0 : e.base ≠ 0) (hhome : PhysInit.homeBase mmap = e.base)
    (hsize : bitmapSize (hiPageTop mmap) ≤ 64 * 4096) : Boots mmap (e.base / 4096 + 64) := by
  refine ⟨hw, hf, by rwa [hhome], fun i h1 h2 => ⟨by omega, ?_, ⟨e, he, hu, ?_⟩, ?_⟩⟩
  · have hend := PhysInit.end_le_hiPageTop hf.below (by norm_num) (by norm_num) he hu
    rw [PhysInit.topPage, pageToBit]
    omega
  · simp only [PhysInit.range, Set.mem_Ico]
    omega
  · rw [PhysInit.bitmapBytes, hhome, Set.mem_Ico]
    omega

section Boots
variable {mmap l : List MmapEntry} {lo : ℕ} (h : Boots mmap lo)
include h

theorem Boots.lawful : Lawful pmmSource (arenaOf mmap) (Handed mmap) :=
  pmmSource_lawful h.wellFormed h.fits h.home

theorem Boots.low : ∀ p ∈ arenaOf mmap, p < 2 ^ 44 := by
  rintro p ⟨-, -, hlt, -⟩
  have := (PhysRun.initUsed_bounds h.wellFormed h.fits).2.2
  omega

theorem Boots.handed (m : Mem) : Handed mmap (pmmInit mmap m).1 ∅ :=
  ⟨[], PhysRun.inv_start h.wellFormed h.fits m, by simp⟩

theorem Boots.serves {s : Machine Pmm} {F : Finset ℕ} (hG : Handed mmap s F) (hF : F.card < 28672) :
    (pmmSource.allocz s).1 ≠ 0 :=
  serves_of_marked h.wellFormed h.fits hG h.marked hF

theorem Boots.served (m : Mem) (hl : ∀ e ∈ l, alignUp e.length 4096 / 4096 ≤ 2 ^ 20) :
    InitServed pmmSource l (pmmInit mmap m).1 ∧
    ∃ root s', vmmInit pmmSource l (pmmInit mmap m).1 = some (root, s') ∧
      ∃ T : List ℕ, T.length ≤ 21505 ∧ Refines root ⟨s', T⟩ (initSpace l) ∧
        Handed mmap s' {t | t ∈ T} := by
  refine vmmInit_of_room h.lawful h.low (h.handed m) (fun s T hG hT => ?_) hl
  rw [show {t | t ∈ T} = ((T.toFinset : Finset ℕ) : Set ℕ) by ext; simp] at hG
  exact h.serves hG ((List.toFinset_card_le T).trans_lt (hT.trans (by norm_num)))

end Boots

/-- 128 MiB of memory. -/
def bootMap : List MmapEntry := [⟨0x100000, 0x8000000, .usable⟩]

theorem bootMap_boots : Boots bootMap 0x140 :=
  boots_of_entry (e := ⟨0x100000, 0x8000000, .usable⟩) ⟨by simp [bootMap], List.pairwise_singleton _ _⟩
    ⟨by simp [PhysInit.EndsBelow, bootMap], by decide, _, List.mem_singleton_self _, rfl, by decide⟩
    (List.mem_singleton_self _) rfl rfl (by norm_num) (by norm_num) (by decide) (by decide)

/-- The same with a device page at 4 GiB. -/
def highMap : List MmapEntry := [⟨0x100000, 0x8000000, .usable⟩, ⟨0x100000000, 0x1000, .reserved⟩]

theorem highMap_boots : Boots highMap 0x140 :=
  boots_of_entry (e := ⟨0x100000, 0x8000000, .usable⟩) ⟨by simp [highMap], by simp [highMap]⟩
    ⟨by simp [PhysInit.EndsBelow, highMap, MmapType.counted], by decide, _, List.mem_cons_self .., rfl,
      by decide⟩
    (List.mem_cons_self ..) rfl rfl (by norm_num) (by norm_num) (by decide) (by decide)

theorem bootMap_placed : (PhysInit.placed bootMap).2 = [⟨0x102000, 0x7ffe000, .usable⟩] := by decide

theorem highMap_placed : (PhysInit.placed highMap).2 =
    [⟨0x102000, 0x7ffe000, .usable⟩, ⟨0x100000000, 0x1000, .reserved⟩] := by decide

/-- With 128 MiB the direct map covers the memory map. -/
theorem direct_map_iff_boot : ∃ root s',
    vmmInit pmmSource (pmmInit bootMap fun _ => 0).2 (pmmInit bootMap fun _ => 0).1 = some (root, s') ∧
      DirectMapped s'.mem root (pmmInit bootMap fun _ => 0).2 := by
  have hmap : (pmmInit bootMap fun _ => 0).2 = [⟨0x102000, 0x7ffe000, .usable⟩] := bootMap_placed
  have h := bootMap_boots
  rw [hmap]
  have hb : Below16TiB [⟨0x102000, 0x7ffe000, .usable⟩] := by simp [Below16TiB]
  obtain ⟨root, s', hok, hiff⟩ := direct_map_iff h.lawful h.low (h.handed fun _ => 0) hb
    (h.served _ (by simp; decide)).1
  exact ⟨root, s', hok, hiff.mpr (by simp [LengthsReach, gib])⟩

/-- **The page at 4 GiB is not mapped**: `vmm_init` maps the first page again for it. -/
theorem high_page_not_mapped : ∃ root s',
    vmmInit pmmSource (pmmInit highMap fun _ => 0).2 (pmmInit highMap fun _ => 0).1 = some (root, s') ∧
      Below16TiB (pmmInit highMap fun _ => 0).2 ∧
      InitServed pmmSource (pmmInit highMap fun _ => 0).2 (pmmInit highMap fun _ => 0).1 ∧
      walk s'.mem (physOf root) (higherHalfData + 0x100000000) = none ∧
      ¬ DirectMapped s'.mem root (pmmInit highMap fun _ => 0).2 := by
  have hmap : (pmmInit highMap fun _ => 0).2 =
    [⟨0x102000, 0x7ffe000, .usable⟩, ⟨0x100000000, 0x1000, .reserved⟩] := highMap_placed
  have h := highMap_boots
  rw [hmap]
  have hb : Below16TiB [⟨0x102000, 0x7ffe000, .usable⟩, ⟨0x100000000, 0x1000, .reserved⟩] := by
    simp [Below16TiB]
  have hs := (h.served (l := [⟨0x102000, 0x7ffe000, .usable⟩, ⟨0x100000000, 0x1000, .reserved⟩])
    (fun _ => 0) (by simp; decide)).1
  obtain ⟨root, s', hok, hR, -⟩ := vmmInit_spec h.lawful h.low (h.handed fun _ => 0) hs
  have hnone : walk s'.machine.mem (physOf root) (higherHalfData + 0x100000000) = none := by
    rw [show 0x100000000 = 4096 * 2 ^ 20 by norm_num, hR.2, pageNumber_direct (by norm_num),
      initSpace_direct hb.short (by norm_num), if_neg]
    decide
  refine ⟨root, s'.machine, hok, hb, hs, hnone, fun hd => ?_⟩
  have hpage := hd ⟨0x100000000, 0x1000, .reserved⟩ (by simp) 0x100000000 (by norm_num)
    ⟨0x100000000, by simp [page, PhysInit.range]⟩
  rw [hnone] at hpage
  exact absurd hpage (by simp)

end FusionCore.Mm.VirtInit
