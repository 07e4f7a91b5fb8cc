import FusionCore.Libk.MallocRun
import FusionCore.Mm.VirtInit

/-! # The heap and the page tables

After `pmm_init`, `vmm_init` and `malloc_heap_init` the page tables are pages handed out like those of the
caches: no call of `malloc` or `free` changes them, so that the translation stays that of `vmm_init`. It
covers the first 4 GiB of physical memory, at 0 and at the start of the heap, while the physical
memory manager hands out every usable page. A block can be reached exactly if it lies below 4 GiB and
holds the size asked for (`heap_reachable_iff`). -/

namespace FusionCore.Libk.MallocReach

open FusionCore.Lib.ByteMem FusionCore.Lib.Runs FusionCore.Mm
open FusionCore.Mm.Defs FusionCore.Mm.Phys FusionCore.Mm.PhysInit FusionCore.Mm.Pages
  FusionCore.Mm.PhysPages
open FusionCore.Mm.Slab FusionCore.Mm.SlabView FusionCore.Mm.SlabRep FusionCore.Mm.SlabOps
open FusionCore.Libk.Malloc FusionCore.Libk.MallocInit FusionCore.Libk.MallocSpec
  FusionCore.Libk.MallocRun
open FusionCore.Mm.Virt (walk tableOf pageNumber MapPriv vmmInit)
open FusionCore.Mm.VirtSpec (Refines)
open FusionCore.Mm.VirtInit (ShortEntries InitServed initSpace Boots)
open FusionCore.Mm.PhysRun (FirstFit initUsed_bounds)

/-- The physical address that `v` is translated to. -/
def translate (m : Mem) (root v : ℕ) : Option ℕ := (walk m root v).map fun e => tableOf e + v % 4096

/-- **The block can be reached.** The `size` bytes from `ptr` on lie in the heap window and are
translated to the bytes after the metadata of the block of `c` bytes at `b`, which is identity-mapped. -/
structure Reachable (m : Mem) (root ptr size b c : ℕ) : Prop where
  window : ∀ i < size, heapStartAddr ≤ ptr + i ∧ ptr + i < heapStartAddr + heapMaxSize
  block : ∀ i < size, 2 + i < c ∧ translate m root (ptr + i) = some (b + 2 + i)
  identity : ∀ j < c, translate m root (b + j) = some (b + j)

/-- **The condition on `malloc(size)`.** The slab of the cache lies below 4 GiB and its buffers hold
the size with the metadata; or the size does not wrap, and the search finds pages below 4 GiB. -/
def Low (h : Heap) (size : ℕ) : Origin → Prop
  | .slab k => size ≤ 510 ∧ load64 h.machine.mem (cacheHead (h.slabCaches k)) < 2 ^ 32
  | .pages n => size ≠ 2 ^ 64 - 1 ∧ ∃ i, i + n ≤ 2 ^ 20 ∧ ScanClear h.machine n i

/-! ### Translation -/

theorem tableOf_leaf {k f : ℕ} (hk : k < 2 ^ 20) (hf : f < 8) : tableOf (4096 * k ||| f) = 4096 * k := by
  rw [Virt.or_flags (Nat.mul_mod_right _ _) hf]
  unfold tableOf
  omega

theorem translate_page {m : Mem} {root v k : ℕ} (hk : k < 2 ^ 20)
    (hv : walk m root v = some (4096 * k ||| MapPriv.kernelReadWrite.flags)) :
    translate m root v = some (4096 * k + v % 4096) := by
  rw [translate, hv, Option.map_some, tableOf_leaf hk (MapPriv.flags_lt _)]

section Translate
variable {l : List MmapEntry} {m : Mem} {root p : ℕ} (hs : ShortEntries l)
  (hwalk : ∀ v, walk m root v = initSpace l (pageNumber v))
include hs hwalk

theorem translate_identity (hp : p < 2 ^ 32) : translate m root p = some p := by
  have hk : p / 4096 < 2 ^ 20 := by omega
  have hpn : pageNumber p = p / 4096 := Nat.mod_eq_of_lt (by omega)
  rw [translate_page hk (by rw [hwalk, hpn, VirtInit.initSpace_identity hs hk])]
  congr 1
  omega

theorem translate_heap (hp : p < 2 ^ 32) : translate m root (heapStartAddr + p) = some p := by
  have hk : p / 4096 < 2 ^ 20 := by omega
  have hpn : pageNumber (heapStartAddr + p) = 2 ^ 35 + 2 ^ 32 + p / 4096 := by
    unfold pageNumber heapStartAddr
    omega
  have hmod : (heapStartAddr + p) % 4096 = p % 4096 := by
    unfold heapStartAddr
    omega
  rw [translate_page hk (by rw [hwalk, hpn, VirtInit.initSpace_heap hs hk]), hmod]
  congr 1
  omega

theorem translate_above (h1 : 2 ^ 32 ≤ p) (h2 : p < 2 ^ 47) : translate m root p = none := by
  have hpn : pageNumber p = p / 4096 := Nat.mod_eq_of_lt (by omega)
  rw [translate, hwalk, hpn, VirtInit.initSpace_above hs (by omega) (by omega), Option.map_none]

/-- **Which blocks can be reached.** -/
theorem reachable_iff {size b c : ℕ} (hsize : 0 < size) (hb : b + c < 2 ^ 44) :
    Reachable m root (toUser b) size b c ↔ size + 2 ≤ c ∧ b + c ≤ 2 ^ 32 := by
  have huser : toUser b = heapStartAddr + (b + 2) := by
    rw [toUser_eq (by omega)]
    omega
  have hmax : heapMaxSize = 2 ^ 32 := by decide
  constructor
  · intro h
    have hc := (h.block (size - 1) (by omega)).1
    refine ⟨by omega, ?_⟩
    by_contra hlt
    have hid := h.identity (c - 1) (by omega)
    rw [translate_above hs hwalk (by omega) (by omega)] at hid
    cases hid
  · rintro ⟨h1, h2⟩
    refine ⟨fun i hi => ?_, fun i hi => ⟨by omega, ?_⟩, fun j hj =>
      translate_identity hs hwalk (by omega)⟩
    · rw [huser, hmax]
      omega
    · rw [huser, Nat.add_assoc, translate_heap hs hwalk (by omega)]

end Translate

/-! ### The condition -/

section Low
variable {mmap : List MmapEntry} {F : Set ℕ} {m₀ : Mem} {h : Heap} {pg : ℕ → ℕ} {vs : ℕ → List View}
  {L : ℕ → List ℕ} {pm : List (ℕ × ℕ)} {size fuel b k n : ℕ} {s₁ : Machine Pmm}
  (hC : Core mmap F m₀ h pg vs L pm) (hw : WellFormed mmap) (hf : Fits mmap)
include hC hw hf

theorem low_slab (h7 : 7 ≤ size) (hr : mallocRoute size = .slab k)
    (hok : takeBlock h fuel (.slab k) = .ok (b, s₁)) :
    b + capacity h (.slab k) < 2 ^ 44 ∧
      (size + 2 ≤ capacity h (.slab k) ∧ b + capacity h (.slab k) ≤ 2 ^ 32 ↔ Low h size (.slab k)) := by
  obtain ⟨hk, h2⟩ := route_slab h7 hr
  obtain ⟨v, -, hslot, -⟩ := hC.malloc_slab hw hf hk h2 hok
  have hI := hC.inv k hk h2
  obtain ⟨h3, h4, -⟩ := hI.slot_place hslot
  obtain ⟨h5, h6⟩ := hC.pages_block hw hf (hC.fixed _ (slab_mem hk))
  have hcap : capacity h (.slab k) = classSize k := hI.rep.size_eq
  -- the class is the one for the size with the metadata
  have hclass : size + 2 ≤ classSize k ↔ size ≤ 510 := by
    unfold mallocRoute at hr
    split_ifs at hr
    rw [← Origin.slab.inj hr, le_classSize_iff]
    omega
  rw [Set.mem_singleton_iff] at h3
  rw [hcap, Low, hclass, hC.head_eq k hk]
  refine ⟨by omega, and_congr_right fun _ => ?_⟩
  have hge := hI.size_ge
  unfold header
  omega

theorem low_pages (hr : mallocRoute size = .pages n) (hsize : size < 2 ^ 64) (hn : 1 ≤ n)
    (hfit : FirstFit h.machine n)
    (hfound : ∃ i < pageToBit h.machine.pmm.hiPageTop, ScanClear h.machine n i)
    (hok : takeBlock h fuel (.pages n) = .ok (b, s₁)) :
    b + capacity h (.pages n) < 2 ^ 44 ∧
      (size + 2 ≤ capacity h (.pages n) ∧ b + capacity h (.pages n) ≤ 2 ^ 32 ↔
        Low h size (.pages n)) := by
  obtain ⟨i, hi, hclear⟩ := hfound
  rw [hC.pmm.hi] at hi
  obtain ⟨j, hj, -, hjb, hjc, hmin⟩ := pmmAllocz_found hw hf hC.pmm hn hi hclear
  have hok := Except.ok.inj hok
  rw [hok] at hjb
  dsimp only at hjb
  -- the last page is below the top
  have hC' := (hC.malloc_pages hw hf hn hfit hok (by omega)).1
  have hlast := (hC'.pmm.safe.marked (b, n) (List.mem_cons_self ..) (n - 1) (by dsimp only; omega)).2.1
  have htop := (initUsed_bounds hw hf).2.2
  dsimp only at hlast
  have hcount : size + 2 ≤ n * 4096 ↔ size ≠ 2 ^ 64 - 1 := by
    unfold mallocRoute at hr
    split_ifs at hr
    have hr := Origin.pages.inj hr
    rw [← hr]
    exact le_pages_iff hsize (by omega)
  rw [Low, capacity, hcount]
  refine ⟨by omega, and_congr_right fun _ => ⟨fun hle => ⟨j, by omega, hjc⟩, ?_⟩⟩
  rintro ⟨i', hle, hc⟩
  have hji : ¬ i' < j := fun hlt => hmin i' hlt hc
  omega

end Low

/-! ### After the boot -/

section Boot
variable {mmap : List MmapEntry} {m : Mem} {names caches : ℕ → ℕ} {root : ℕ}
  {s₁ : Machine Pmm} {h h' : Heap}
  {ops : List HeapOp} {s : HeapState} {fuel size ptr : ℕ}

/-- **Heap reachability.** In every state of a run after `pmm_init`, `vmm_init` and
`malloc_heap_init` whose calls meet the condition of the allocators, a block that `malloc` returns
can be reached exactly if it lies below 4 GiB and holds the size. -/
theorem heap_reachable_iff (hw : WellFormed mmap) (hf : Fits mmap) (hb : homeBase mmap ≠ 0)
    (hshort : ShortEntries mmap) (hserved : InitServed pmmSource (pmmInit mmap m).2 (pmmInit mmap m).1)
    (hvmm : vmmInit pmmSource (pmmInit mmap m).2 (pmmInit mmap m).1 = some (root, s₁))
    (hheap : mallocHeapInit names ⟨s₁, caches⟩ = .ok h)
    (hrun : Run (fun s o t => Step s o t ∧ Meets s o) ⟨h, []⟩ ops s) (hsize : size < 2 ^ 64)
    (hm : Meets s (.malloc size)) (hok : malloc s.heap fuel size = .ok (ptr, h')) :
    ∃ b s₂, takeBlock s.heap fuel (mallocRoute size) = .ok (b, s₂) ∧
      (Reachable h'.machine.mem (physOf root) ptr size b (capacity s.heap (mallocRoute size)) ↔
        Low s.heap size (mallocRoute size)) := by
  have hL := pmmSource_lawful hw hf hb
  have hlow : ∀ p ∈ arenaOf mmap, p < 2 ^ 44 := by
    rintro p ⟨-, -, hlt, -⟩
    have := (initUsed_bounds hw hf).2.2
    omega
  have hstart : Handed mmap (pmmInit mmap m).1 ∅ := ⟨[], PhysRun.inv_start hw hf m, by simp⟩
  obtain ⟨root', v, hvmm', hR, hG⟩ := VirtInit.vmmInit_spec hL hlow hstart hserved
  rw [hvmm] at hvmm'
  obtain ⟨rfl, rfl⟩ := Prod.mk.inj (Option.some.inj hvmm')
  have hI := heapInv_of_run hw hf hb (show Handed mmap (Heap.mk v.machine caches).machine _ from hG)
    hheap hrun
  have hex : exec fuel s (.malloc size) = .ok ⟨h', (ptr, mallocRoute size) :: s.live⟩ := by
    rw [exec, hok]
    rfl
  -- the page tables are as `vmm_init` left them
  obtain ⟨_, _, _, _, hC', -⟩ := heapInv_malloc hw hf hI hex hm
  have hwalk : ∀ w, walk h'.machine.mem (physOf root) w = initSpace (pmmInit mmap m).2 (pageNumber w) :=
    fun w => (hR.1.walk_congr hC'.kept w).trans (hR.2 w)
  have hs : ShortEntries (pmmInit mmap m).2 := hshort.placeBitmap
  obtain ⟨pg, vs, L, pm, hC, -⟩ := hI
  rw [malloc_eq] at hok
  obtain ⟨⟨b, s₂⟩, htake, heq⟩ := map_eq_ok hok
  have hptr : toUser b = ptr := (Prod.mk.inj heq).1
  obtain ⟨h7, hpages⟩ := hm
  refine ⟨b, s₂, htake, ?_⟩
  have hiff : b + capacity s.heap (mallocRoute size) < 2 ^ 44 ∧
      (size + 2 ≤ capacity s.heap (mallocRoute size) ∧ b + capacity s.heap (mallocRoute size) ≤ 2 ^ 32 ↔
        Low s.heap size (mallocRoute size)) := by
    cases hr : mallocRoute size with
    | slab k => exact low_slab hC hw hf h7 hr (hr ▸ htake)
    | pages n =>
      obtain ⟨hn, hfit, hfound⟩ := hpages n hr
      exact low_pages hC hw hf hr hsize hn hfit hfound (hr ▸ htake)
  rw [← hptr, reachable_iff hs hwalk (by omega) hiff.1, hiff.2]

end Boot

/-! ### 100 bytes after the boot -/

/-- The heap right after the boot: one fresh slab for each cache, and the pages of the paging code. -/
theorem boot_heap {mmap : List MmapEntry} {lo : ℕ} (hB : Boots mmap lo) (m : Mem)
    (hl : ∀ e ∈ (pmmInit mmap m).2, alignUp e.length 4096 / 4096 ≤ 2 ^ 20) :
    ∃ (root : ℕ) (s₁ : Machine Pmm) (h : Heap) (T : List ℕ) (pg : ℕ → ℕ) (pm : List (ℕ × ℕ)),
      InitServed pmmSource (pmmInit mmap m).2 (pmmInit mmap m).1 ∧
      vmmInit pmmSource (pmmInit mmap m).2 (pmmInit mmap m).1 = some (root, s₁) ∧
      mallocHeapInit (fun _ => 0) ⟨s₁, fun _ => 0⟩ = .ok h ∧ T.length ≤ 21505 ∧
      Refines root ⟨s₁, T⟩ (initSpace (pmmInit mmap m).2) ∧
      Core mmap {t | t ∈ T} s₁.mem h pg (fun k => [fresh (classSize k) (pg k)]) (fun _ => []) pm ∧
      ∀ b ∈ pm, b.2 = 1 ∧ (b.1 ∈ T ∨ ∃ k < 8, b.1 = h.slabCaches k ∨ b.1 = pg k) := by
  obtain ⟨hserved, root, s₁, hvmm, T, hT, hR, hG⟩ := hB.served m hl
  have hGF : Handed mmap s₁ (T.toFinset : Finset ℕ) := by
    rwa [show ((T.toFinset : Finset ℕ) : Set ℕ) = {t | t ∈ T} by ext; simp]
  have hcard := List.toFinset_card_le T
  obtain ⟨h, hheap⟩ := createCaches_returns (fun _ => 0) (h := ⟨s₁, fun _ => 0⟩) (j := 0) (n := 8)
    hB.lawful (fun _ _ hG hc => hB.serves hG hc) hGF (by omega) le_rfl
  have hheap : mallocHeapInit (fun _ => 0) ⟨s₁, fun _ => 0⟩ = .ok h := hheap
  obtain ⟨pg, H, hbuilt, hK, hH⟩ := built_of_init hB.lawful (h := ⟨s₁, fun _ => 0⟩) hG hheap
  obtain ⟨pm, hC, hpm⟩ := core_of_built hbuilt hK
  exact ⟨root, s₁, h, T, pg, pm, hserved, hvmm, hheap, hT, hR, hC, fun b hb =>
    ⟨((hpm b).mp hb).1, hH _ ((hpm b).mp hb).2⟩⟩

theorem boot_block {mmap : List MmapEntry} {lo : ℕ} (hB : Boots mmap lo) (m : Mem)
    (hl : ∀ e ∈ (pmmInit mmap m).2, alignUp e.length 4096 / 4096 ≤ 2 ^ 20) :
    ∃ root s₁ h fuel b h', InitServed pmmSource (pmmInit mmap m).2 (pmmInit mmap m).1 ∧
      vmmInit pmmSource (pmmInit mmap m).2 (pmmInit mmap m).1 = some (root, s₁) ∧
      mallocHeapInit (fun _ => 0) ⟨s₁, fun _ => 0⟩ = .ok h ∧ Meets ⟨h, []⟩ (.malloc 100) ∧
      malloc h fuel 100 = .ok (toUser b, h') ∧ b < 2 ^ 43 ∧ MarkedFree mmap (b / 4096) ∧
      load64 h.machine.mem (cacheHead (h.slabCaches 5)) = b + 4064 := by
  obtain ⟨root, s₁, h, T, pg, pm, hserved, hvmm, hheap, -, -, hC, -⟩ := boot_heap hB m hl
  have hw := hB.wellFormed
  have hf := hB.fits
  obtain ⟨l, hl⟩ := takeFirst_fresh (pg 5)
  have hr : mallocRoute 100 = .slab 5 := by decide
  obtain ⟨h', ⟨⟨-, fuel, hex⟩, hm⟩, -⟩ := hC.malloc_step [] hw hf hr (by norm_num) (by norm_num) hl
  obtain ⟨r, hok, hst⟩ := map_eq_ok hex
  have hlive : (pg 5, 1) ∈ pm := hC.fixed _ (slab_mem (by norm_num))
  refine ⟨root, s₁, h, fuel, pg 5, r.2, hserved, hvmm, hheap, hm, ?_, (hC.pages_block hw hf hlive).1,
    (Handed.page_ok hC.pmm hlive).2.1, hC.head_eq 5 (by norm_num)⟩
  have hptr : r.1 = toUser (pg 5) := (Prod.mk.inj (List.cons.inj (congrArg HeapState.live hst)).1).1
  rw [← hptr]
  exact hok

/-- With 128 MiB from 1 MiB on, the first block can be reached. -/
theorem heap_reachable_iff_boot : ∃ root s₁ h fuel ptr h' b s₂,
    vmmInit pmmSource (pmmInit VirtInit.bootMap fun _ => 0).2 (pmmInit VirtInit.bootMap fun _ => 0).1 =
      some (root, s₁) ∧ mallocHeapInit (fun _ => 0) ⟨s₁, fun _ => 0⟩ = .ok h ∧
    malloc h fuel 100 = .ok (ptr, h') ∧ takeBlock h fuel (mallocRoute 100) = .ok (b, s₂) ∧
      Reachable h'.machine.mem (physOf root) ptr 100 b (capacity h (mallocRoute 100)) := by
  have hB := VirtInit.bootMap_boots
  have hmap : (pmmInit VirtInit.bootMap fun _ => 0).2 = [⟨0x102000, 0x7ffe000, .usable⟩] :=
    VirtInit.bootMap_placed
  obtain ⟨root, s₁, h, fuel, b, h', hserved, hvmm, hheap, hm, hok, -, hmark, hhead⟩ :=
    boot_block hB (fun _ => 0) (by rw [hmap]; simp; decide)
  obtain ⟨b', s₂, htake, hiff⟩ := heap_reachable_iff hB.wellFormed hB.fits hB.home
    (by simp [ShortEntries, VirtInit.bootMap]) hserved hvmm hheap .nil (by norm_num) hm hok
  refine ⟨root, s₁, h, fuel, _, h', b', s₂, hvmm, hheap, hok, htake, hiff.mpr ⟨by norm_num, ?_⟩⟩
  have htop : topPage VirtInit.bootMap = 0x8100 := by decide
  have hlt := hmark.2.1
  rw [htop] at hlt
  exact hhead.trans_lt (by omega)

/-- 128 MiB of memory from 4 GiB on. -/
def farMap : List MmapEntry := [⟨0x100000000, 0x8000000, .usable⟩]

theorem farMap_boots : Boots farMap 0x100040 :=
  VirtInit.boots_of_entry (e := ⟨0x100000000, 0x8000000, .usable⟩)
    ⟨by simp [farMap], List.pairwise_singleton _ _⟩
    ⟨by simp [EndsBelow, farMap], by decide, _, List.mem_singleton_self _, rfl, by decide⟩
    (List.mem_singleton_self _) rfl rfl (by norm_num) (by norm_num) (by decide) (by decide)

theorem farMap_high {i : ℕ} (hi : MarkedFree farMap i) : 2 ^ 20 ≤ i := by
  obtain ⟨-, -, ⟨e, he, -, hr⟩, -⟩ := hi
  have hbase : e.base = 4096 * 2 ^ 20 := by
    rw [List.mem_singleton.mp he]
    norm_num
  have := hr.1
  omega

theorem toUser_high {b : ℕ} (h1 : 2 ^ 32 ≤ b) (h2 : b < 2 ^ 43) :
    heapStartAddr + heapMaxSize ≤ toUser b := by
  rw [toUser_eq (by omega), show heapMaxSize = 2 ^ 32 by decide, Nat.add_comm (b + 2)]
  exact Nat.add_le_add_left (by omega) _

/-- **A block above 4 GiB is not in the heap window.** -/
theorem far_block_unreachable : ∃ root s₁ h fuel ptr h',
    vmmInit pmmSource (pmmInit farMap fun _ => 0).2 (pmmInit farMap fun _ => 0).1 = some (root, s₁) ∧
      mallocHeapInit (fun _ => 0) ⟨s₁, fun _ => 0⟩ = .ok h ∧ malloc h fuel 100 = .ok (ptr, h') ∧
      heapStartAddr + heapMaxSize ≤ ptr ∧
      ∀ b, ¬ Reachable h'.machine.mem (physOf root) ptr 100 b (capacity h (mallocRoute 100)) := by
  have hmap : (placed farMap).2 = [⟨0x100021000, 0x7fdf000, .usable⟩] := by decide
  have hmap : (pmmInit farMap fun _ => 0).2 = [⟨0x100021000, 0x7fdf000, .usable⟩] := hmap
  obtain ⟨root, s₁, h, fuel, b, h', -, hvmm, hheap, -, hok, hlt, hmark, -⟩ :=
    boot_block farMap_boots (fun _ => 0) (by rw [hmap]; simp; decide)
  have hptr := toUser_high (by have := farMap_high hmark; omega) hlt
  refine ⟨root, s₁, h, fuel, _, h', hvmm, hheap, hok, hptr, fun b' hreach => ?_⟩
  have hwin := (hreach.window 0 (by norm_num)).2
  rw [Nat.add_zero] at hwin
  exact Nat.not_lt.mpr hptr hwin

end FusionCore.Libk.MallocReach
