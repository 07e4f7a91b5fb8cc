import FusionCore.Sys.MemoryFrame

/-! # Runs of kernel memory

A run starts after the boot and interleaves calls of the heap, calls of the paging code and stores in
any order. The invariant `SysInv`: the page tables refine an address space that still has the pages
of `vmm_init`, the allocators are as in a run of the heap with the page tables as pages of somebody
else, and the live blocks are apart. One step keeps it, and every byte of a live block that it does
not store to (`sysInv_step`).

* `translation_of_calls`: an address is translated as `vmm_init` and the last call for its page say,
  whatever the heap did.
* `load_last_store`: a load from a live block gives the byte stored last.
* `blocks_private`: live blocks are apart from each other and from the page tables, and their virtual
  addresses lead to their own bytes. -/

namespace FusionCore.Sys.MemorySpec

open FusionCore.Lib.ByteMem FusionCore.Lib.Radix FusionCore.Lib.Runs FusionCore.Mm
open FusionCore.Mm.Defs FusionCore.Mm.Phys FusionCore.Mm.PhysInit FusionCore.Mm.Pages
  FusionCore.Mm.PhysPages
open FusionCore.Mm.SlabRep
open FusionCore.Libk.Malloc FusionCore.Libk.MallocInit FusionCore.Libk.MallocRun
open FusionCore.Libk.MallocReach (translate translate_page)
open FusionCore.Mm.Virt (MapPriv pageNumber path presentAt tableOf walk vmmInit)
open FusionCore.Mm.VirtSpec (VmmOp Refines)
open FusionCore.Mm.VirtInit (ShortEntries InitServed initSpace)
open FusionCore.Sys.Memory FusionCore.Sys.MemoryFrame

/-- **The invariant**: `T` are the pages used as tables. -/
structure SysInv (mmap entries : List MmapEntry) (root : ℕ) (s : HeapState)
    (space : ℕ → Option ℕ) : Prop where
  owned : ∃ T pg vs L pm, Refines root ⟨s.heap.machine, T⟩ space ∧
    Core mmap {t | t ∈ T} (memOf s) s.heap pg vs L pm ∧
    ∀ e ∈ s.live, Holds {t | t ∈ T} s.heap pg L pm e.1 e.2
  apart : s.live.Pairwise fun e e' => Disjoint (blockOf e) (blockOf e')
  mapped : ∀ p e, initSpace entries p = some e → space p = some e

theorem SysInv.disjoint {mmap entries : List MmapEntry} {root : ℕ} {s : HeapState} {space : ℕ → Option ℕ}
    {e e' : ℕ × Origin} (hI : SysInv mmap entries root s space) (he : e ∈ s.live) (he' : e' ∈ s.live)
    (hne : e ≠ e') : Disjoint (blockOf e) (blockOf e') := by
  have hsymm : Std.Symm fun e e' : ℕ × Origin => Disjoint (blockOf e) (blockOf e') :=
    ⟨fun _ _ h => h.symm⟩
  exact hI.apart.forall he he' hne

variable {mmap entries : List MmapEntry} {root k p a ptr : ℕ} {s t : HeapState} {space : ℕ → Option ℕ}
  {F : Set ℕ} {m₀ m' : Mem} {h : Heap} {pg : ℕ → ℕ} {vs : ℕ → List SlabView.View} {L : ℕ → List ℕ}
  {pm : List (ℕ × ℕ)} {T : List ℕ} {o : Origin} {e : ℕ × Origin}

/-! ### Translations of blocks -/

theorem refines_same {M M' : Machine Pmm} (hR : Refines root ⟨M, T⟩ space)
    (hs : SamePages {t | t ∈ T} M.mem M'.mem) : Refines root ⟨M', T⟩ space :=
  ⟨hR.1.same (hR.1.sameTree hs), fun v => (hR.1.walk_congr hs v).trans (hR.2 v)⟩

theorem translate_window {M : Machine Pmm} (hR : Refines root ⟨M, T⟩ space) (hs : ShortEntries entries)
    (hmap : ∀ p e, initSpace entries p = some e → space p = some e) (hp : p < 2 ^ 32) :
    translate M.mem (physOf root) (heapStartAddr + p) = some p := by
  have hk : p / 4096 < 2 ^ 20 := by omega
  have hpn : pageNumber (heapStartAddr + p) = 2 ^ 35 + 2 ^ 32 + p / 4096 := by
    unfold pageNumber heapStartAddr
    omega
  have hmod : (heapStartAddr + p) % 4096 = p % 4096 := by
    unfold heapStartAddr
    omega
  have hwalk : walk M.mem (physOf root) (heapStartAddr + p) =
      some (4096 * (p / 4096) ||| MapPriv.kernelReadWrite.flags) :=
    (hR.2 (heapStartAddr + p)).trans ((congrArg space hpn).trans
      (hmap _ _ (VirtInit.initSpace_heap hs hk)))
  have hp' : 4096 * (p / 4096) + p % 4096 = p := Nat.div_add_mod p 4096
  rw [translate_page hk hwalk, hmod, hp']

section Block
variable (hC : Core mmap F m₀ h pg vs L pm) (hw : WellFormed mmap) (hf : Fits mmap)
  (hH : Holds F h pg L pm ptr o)
include hC hw hf hH

theorem ptr_eq : ptr = heapStartAddr + ofUser ptr + 2 := by
  have huser : ∀ b, b < 2 ^ 44 → ptr = toUser b → ptr = heapStartAddr + ofUser ptr + 2 := by
    intro b hb hptr
    have h1 := ofUser_toUser (show b < 2 ^ 64 by omega)
    have h2 := toUser_eq hb
    rw [← hptr] at h1 h2
    omega
  cases o with
  | slab k =>
    obtain ⟨b, hb, hptr, -, h2, hk⟩ := hH
    exact huser b (hC.slab_block hw hf hk h2 hb) hptr
  | pages n =>
    obtain ⟨b, hptr, hb, -⟩ := hH
    exact huser b (by have := (hC.pages_block hw hf hb).1; omega) hptr

theorem block_lt (hx : p ∈ blockOf (ptr, o)) : p < topPage mmap * 4096 := by
  obtain ⟨q, hq, hsub, -⟩ := block_live hC hw hf hH
  obtain ⟨r, hr, hpr⟩ := extent_arena hC.pmm hq (hsub hx)
  have h1 := hr.2.2.1
  have h2 := hr.1
  rw [mem_page] at hpr
  omega

theorem payload_byte (ha : a ∈ payload (ptr, o)) :
    ∃ p ∈ blockOf (ptr, o), a = heapStartAddr + p ∧ ofUser ptr + 2 ≤ p := by
  have hptr := ptr_eq hC hw hf hH
  rw [payload, Set.mem_Ico] at ha
  dsimp only at ha
  refine ⟨a - heapStartAddr, ?_, by omega, by omega⟩
  rw [blockOf, Set.mem_Ico]
  dsimp only
  omega

theorem holds_same (hm : ∀ x, ofUser ptr ≤ x → x < ofUser ptr + 2 → m' x = h.machine.mem x) :
    Holds F { h with machine := { h.machine with mem := m' } } pg L pm ptr o := by
  have hmeta : load16 m' (ofUser ptr) = load16 h.machine.mem (ofUser ptr) :=
    load_congr fun x hx => hm x hx.1 hx.2
  cases o with
  | slab k =>
    obtain ⟨b, hb, hptr, hk, h2, h8⟩ := hH
    have hlt := hC.slab_block hw hf h8 h2 hb
    rw [hptr, ofUser_toUser (by omega)] at hmeta
    exact ⟨b, hb, hptr, hmeta.trans hk, h2, h8⟩
  | pages n =>
    obtain ⟨b, hptr, hb, hbr, hn⟩ := hH
    have hlt := (hC.pages_block hw hf hb).1
    rw [hptr, ofUser_toUser (by omega)] at hmeta
    exact ⟨b, hptr, hb, hbr, hmeta.trans hn⟩

theorem block_not_fixed (hp : p ∈ blockOf (ptr, o)) {q : ℕ} (hq : q ∈ F) : p ∉ page q := by
  intro hpq
  refine Set.disjoint_left.mp (block_apart_pages hC hw hf hH (hC.fixed q (Or.inl hq)) (Or.inl hq)
    fun k hk he => ?_) hp (by rwa [extent_page])
  subst hk
  obtain ⟨-, -, -, -, -, h8⟩ := hH
  exact (hC.others k h8).2 ((Prod.mk.inj he).1 ▸ hq)

/-- **A store into a live block** keeps the allocators. -/
theorem core_store (hp : p ∈ blockOf (ptr, o)) (x : UInt8) :
    Core mmap F m₀ { h with machine := { h.machine with mem := Function.update h.machine.mem p x } }
      pg vs L pm := by
  have hother : ∀ y, y ≠ p → Function.update h.machine.mem p x y = h.machine.mem y := fun y hy =>
    Function.update_of_ne hy _ _
  cases o with
  | slab k =>
    obtain ⟨b, hb, hptr, -, h2, h8⟩ := hH
    have hlt := hC.slab_block hw hf h8 h2 hb
    rw [blockOf, hptr, ofUser_toUser (by omega)] at hp
    have hI := hC.inv k h8 h2
    have hd : ∀ P : Set ℕ, ∀ X : Set ℕ, b ∈ X → DiffersOn (touch (classSize k) (h.slabCaches k) P X)
        h.machine.mem (Function.update h.machine.mem p x) := by
      intro P X hX y hy
      refine hother y fun he => hy (Or.inr (Or.inr ⟨b, hX, ?_⟩))
      rw [he]
      exact hp
    have hC' := hC.frame_slab h8 h2 (hI.live_slot hb) (hd {pg k} {b} rfl) hw hf
      (hI.write (hd ∅ {x | x ∈ L k} hb))
    rwa [Function.update_eq_self, Function.update_eq_self] at hC'
  | pages n =>
    have hbit := Set.disjoint_left.mp (block_apart_bitmap hC hw hf hH) hp
    refine hC.frame_pages (inv_write hf hC.pmm fun y hy => hother y fun he => hbit (he ▸ hy)) hC.fixed
      fun q hq y hy => hother y fun he => ?_
    refine Set.disjoint_left.mp
      (block_apart_pages hC hw hf hH (hC.fixed q hq) hq fun k hk => by cases hk) hp ?_
    rw [extent_page]
    exact he ▸ hy

end Block

/-! ### One step -/

section Step
variable (hw : WellFormed mmap) (hf : Fits mmap) (hI : SysInv mmap entries root s space)
include hw hf hI

theorem owned_heap {o : HeapOp} (hst : Libk.MallocRun.Step s o t) (hm : Libk.MallocRun.Meets s o) :
    ∃ T pg vs L pm, Refines root ⟨t.heap.machine, T⟩ space ∧
      Core mmap {t | t ∈ T} (memOf t) t.heap pg vs L pm ∧
      ∀ e ∈ t.live, Holds {t | t ∈ T} t.heap pg L pm e.1 e.2 := by
  obtain ⟨T, pg, vs, L, pm, hR, hC, hlive⟩ := hI.owned
  obtain ⟨pg', vs', L', pm', hC', hlive'⟩ := heapInv_step hw hf ⟨pg, vs, L, pm, hC, hlive⟩ hst hm
  exact ⟨T, pg', vs', L', pm', refines_same hR hC'.kept, { hC' with kept := fun _ _ _ _ => rfl }, hlive'⟩

/-- **A call of `malloc`.** -/
theorem sysInv_malloc {size : ℕ} (hst : Libk.MallocRun.Step s (.malloc size) t)
    (hm : Libk.MallocRun.Meets s (.malloc size)) : SysInv mmap entries root t space ∧
      ∀ e ∈ s.live, e ∈ t.live ∧ Set.EqOn (memOf t) (memOf s) (blockOf e) := by
  have hown := owned_heap hw hf hI hst hm
  obtain ⟨T, pg, vs, L, pm, hR, hC, hlive⟩ := hI.owned
  obtain ⟨-, fuel, hok⟩ := hst
  obtain ⟨e₁, ht, hap⟩ := malloc_apart hC hlive hw hf hok hm
  refine ⟨⟨hown, ?_, hI.mapped⟩, fun e he => ⟨?_, (hap e he).1⟩⟩
  · rw [ht]
    exact List.pairwise_cons.mpr ⟨fun e he => (hap e he).2, hI.apart⟩
  · rw [ht]
    exact List.mem_cons_of_mem _ he

/-- **A call of `free`.** -/
theorem sysInv_free (hst : Libk.MallocRun.Step s (.free ptr) t)
    (hm : Libk.MallocRun.Meets s (.free ptr)) :
    SysInv mmap entries root t space ∧
      ∀ e ∈ s.live, e.1 ≠ ptr → e ∈ t.live ∧ Set.EqOn (memOf t) (memOf s) (blockOf e) := by
  have hown := owned_heap hw hf hI hst hm
  obtain ⟨T, pg, vs, L, pm, hR, hC, hlive⟩ := hI.owned
  obtain ⟨hv, fuel, hok⟩ := hst
  obtain ⟨ht, hap⟩ := free_apart hC hlive hw hf hv hok hm
  refine ⟨⟨hown, ?_, hI.mapped⟩, fun e he hne => ⟨?_, hap e he hne⟩⟩
  · rw [ht]
    exact hI.apart.filter _
  · rw [ht]
    simpa using ⟨he, hne⟩

/-- **A call of the paging code.** -/
theorem sysInv_vmm (hb : homeBase mmap ≠ 0) {o : VmmOp} (hst : MemStep root s (.vmm o) t)
    (hm : MemMeets entries root s (.vmm o)) : SysInv mmap entries root t (Mm.VirtSpec.next space o) ∧
      ∀ e ∈ s.live, e ∈ t.live ∧ Set.EqOn (memOf t) (memOf s) (blockOf e) := by
  obtain ⟨T, pg, vs, L, pm, hR, hC, hlive⟩ := hI.owned
  obtain ⟨hv, rfl⟩ := hst
  obtain ⟨T', pm', hR', hC', hH'⟩ := vmm_apart hC hw hf hb hR hv hm.2
  refine ⟨⟨⟨T', pg, vs, L, pm', hR', hC', fun e he => (hH' e.1 e.2 (hlive e he)).1⟩, hI.apart,
    fun p e hp => ?_⟩, fun e he => ⟨he, (hH' e.1 e.2 (hlive e he)).2⟩⟩
  have hne : p ≠ pageNumber o.virt := by
    rintro rfl
    rw [hm.1] at hp
    cases hp
  cases o with
  | map phys virt priv => exact (Function.update_of_ne hne _ _).trans (hI.mapped p e hp)
  | unmap virt => exact (Function.update_of_ne hne _ _).trans (hI.mapped p e hp)

variable (hs : ShortEntries entries) (hlow : topPage mmap ≤ 2 ^ 20)
include hs hlow

/-- **The virtual addresses of a block lead to its bytes.** -/
theorem translate_payload (he : e ∈ s.live) (ha : a ∈ payload e) :
    ∃ p ∈ blockOf e, a = heapStartAddr + p ∧ ofUser e.1 + 2 ≤ p ∧
      translate (memOf s) (physOf root) a = some p := by
  obtain ⟨T, pg, vs, L, pm, hR, hC, hlive⟩ := hI.owned
  obtain ⟨p, hp, rfl, h2⟩ := payload_byte hC hw hf (hlive e he) ha
  have hlt := block_lt hC hw hf (hlive e he) hp
  exact ⟨p, hp, rfl, h2, translate_window hR hs hI.mapped (by omega)⟩

/-- **A store** changes one byte of one live block. -/
theorem sysInv_store {x : UInt8} (hst : MemStep root s (.store a x) t)
    (hm : MemMeets entries root s (.store a x)) : SysInv mmap entries root t space ∧ t.live = s.live ∧
      ∃ p, a = heapStartAddr + p ∧ memOf t = Function.update (memOf s) p x := by
  obtain ⟨e, he, ha⟩ := hm
  obtain ⟨p, hp, rfl, h2, htr⟩ := translate_payload hw hf hI hs hlow he ha
  obtain ⟨q, hq, rfl⟩ := hst
  obtain rfl : p = q := Option.some.inj (htr.symm.trans hq)
  refine ⟨⟨?_, hI.apart, hI.mapped⟩, rfl, p, rfl, rfl⟩
  obtain ⟨T, pg, vs, L, pm, hR, hC, hlive⟩ := hI.owned
  have hC' := core_store hC hw hf (hlive e he) hp x
  have hsame : SamePages {t | t ∈ T} (memOf s) (Function.update (memOf s) p x) := fun r hr y hy =>
    Function.update_of_ne (fun hyp : y = p => block_not_fixed hC hw hf (hlive e he) hp hr (hyp ▸ hy)) _ _
  refine ⟨T, pg, vs, L, pm, refines_same hR hsame, { hC' with kept := fun _ _ _ _ => rfl },
    fun e' he' => ?_⟩
  refine holds_same hC hw hf (hlive e' he') fun y h3 h4 => Function.update_of_ne (fun hyp => ?_) _ _
  by_cases hee : e' = e
  · rw [hee] at h4
    omega
  · -- the metadata of another block
    refine Set.disjoint_left.mp (hI.disjoint he' he hee) ?_ hp
    subst hyp
    have hsize : 2 ≤ blockSize e'.2 := by
      have hH := hlive e' he'
      cases ho : e'.2 with
      | slab k =>
        rw [ho] at hH
        obtain ⟨-, -, -, -, hk2, hk8⟩ := hH
        have := (hC.inv k hk8 hk2).size_ge
        dsimp only [blockSize]
        omega
      | pages n =>
        rw [ho] at hH
        obtain ⟨b, -, hb, -⟩ := hH
        have hpos := hC.pmm.pos _ hb
        dsimp only [blockSize] at hpos ⊢
        omega
    rw [blockOf, Set.mem_Ico]
    omega

/-- **One step** keeps the invariant, and the bytes of a live block that it neither frees nor stores
to. -/
theorem sysInv_step (hb : homeBase mmap ≠ 0) {o : MemOp} (hst : LawfulStep entries root s o t) :
    SysInv mmap entries root t (nextSpace space o) ∧
      ∀ e ∈ s.live, o ≠ .heap (.free e.1) → e ∈ t.live ∧
        ∀ p ∈ blockOf e, (∀ x, o ≠ .store (heapStartAddr + p) x) → memOf t p = memOf s p := by
  obtain ⟨hst, hm⟩ := hst
  cases o with
  | heap o =>
    cases o with
    | malloc size =>
      obtain ⟨hI', hk⟩ := sysInv_malloc hw hf hI hst hm
      exact ⟨hI', fun e he _ => ⟨(hk e he).1, fun p hp _ => (hk e he).2 hp⟩⟩
    | free ptr =>
      obtain ⟨hI', hk⟩ := sysInv_free hw hf hI hst hm
      refine ⟨hI', fun e he hne => ?_⟩
      have hptr : e.1 ≠ ptr := fun he' => hne (he' ▸ rfl)
      exact ⟨(hk e he hptr).1, fun p hp _ => (hk e he hptr).2 hp⟩
  | vmm o =>
    obtain ⟨hI', hk⟩ := sysInv_vmm hw hf hI hb hst hm
    exact ⟨hI', fun e he _ => ⟨(hk e he).1, fun p hp _ => (hk e he).2 hp⟩⟩
  | store a x =>
    obtain ⟨hI', hlive, q, rfl, hmem⟩ := sysInv_store hw hf hI hs hlow hst hm
    refine ⟨hI', fun e he _ => ⟨hlive ▸ he, fun p _ hne => ?_⟩⟩
    rw [hmem]
    exact Function.update_of_ne (fun hpq => hne x (by rw [hpq])) _ _

end Step

/-! ### After the boot -/

section Runs
variable {m : Mem} {ops ops₁ ops₂ : List MemOp} {s₁ s₂ : HeapState} {addr : ℕ} {x : UInt8}
  (hB : Boot mmap m root h)
include hB

theorem sysInv_boot : SysInv mmap (pmmInit mmap m).2 root ⟨h, []⟩ (initSpace (pmmInit mmap m).2) := by
  have hL := pmmSource_lawful hB.wellFormed hB.fits hB.home
  have hlow : ∀ p ∈ arenaOf mmap, p < 2 ^ 44 := by
    rintro p ⟨-, -, hlt, -⟩
    have := hB.low
    omega
  have hstart : Handed mmap (pmmInit mmap m).1 ∅ :=
    ⟨[], PhysRun.inv_start hB.wellFormed hB.fits m, by simp⟩
  obtain ⟨root', v, hvmm', hR, hG⟩ := VirtInit.vmmInit_spec hL hlow hstart hB.served
  obtain ⟨s₁, names, caches, hvmm, hheap⟩ := hB.booted
  rw [hvmm] at hvmm'
  obtain ⟨rfl, rfl⟩ := Prod.mk.inj (Option.some.inj hvmm')
  obtain ⟨pg, H, hbuilt, hK, -⟩ := built_of_init hL (h := ⟨v.machine, caches⟩) hG hheap
  obtain ⟨pm, hC, -⟩ := core_of_built hbuilt hK
  exact ⟨⟨v.tables, pg, _, _, pm, refines_same hR hC.kept, { hC with kept := fun _ _ _ _ => rfl },
    by simp⟩, .nil, fun _ _ hp => hp⟩

theorem sysInv_run (hrun : Run (LawfulStep (pmmInit mmap m).2 root) ⟨h, []⟩ ops s) :
    SysInv mmap (pmmInit mmap m).2 root s (ops.foldl nextSpace (initSpace (pmmInit mmap m).2)) :=
  hrun.simulates (sysInv_boot hB) fun _ _ _ _ hI hst =>
    (sysInv_step hB.wellFormed hB.fits hI hB.short.placeBitmap hB.low hB.home hst).1

/-- **Translations** are those of `vmm_init` and of the calls of the paging code, whatever the heap
and its clients did in between. -/
theorem translation_of_calls (hrun : Run (LawfulStep (pmmInit mmap m).2 root) ⟨h, []⟩ ops s) (v : ℕ) :
    walk (memOf s) (physOf root) v =
      ops.foldl nextSpace (initSpace (pmmInit mmap m).2) (pageNumber v) := by
  obtain ⟨T, pg, vs, L, pm, hR, -⟩ := (sysInv_run hB hrun).owned
  exact hR.2 v

/-- **A block keeps what is stored in it.** After a store to a live block, and any further calls and
stores that do not free the block and do not store to the same address, a load gives the byte stored. -/
theorem load_last_store (hrun₁ : Run (LawfulStep (pmmInit mmap m).2 root) ⟨h, []⟩ ops₁ s₁)
    (he : e ∈ s₁.live) (ha : addr ∈ payload e)
    (hst : LawfulStep (pmmInit mmap m).2 root s₁ (.store addr x) s₂)
    (hrun₂ : Run (LawfulStep (pmmInit mmap m).2 root) s₂ ops₂ s)
    (hno : ∀ o ∈ ops₂, o ≠ .heap (.free e.1) ∧ ∀ y, o ≠ .store addr y) :
    readByte root s addr = some x := by
  have hs : ShortEntries (pmmInit mmap m).2 := hB.short.placeBitmap
  have hI₁ := sysInv_run hB hrun₁
  have hI₂ := sysInv_run hB (hrun₁.snoc hst)
  obtain ⟨hlive₂, q, rfl, hmem⟩ :=
    (sysInv_store hB.wellFormed hB.fits hI₁ hs hB.low hst.1 hst.2).2
  have he₂ : e ∈ s₂.live := hlive₂ ▸ he
  obtain ⟨p, hp, hqp, -, -⟩ := translate_payload hB.wellFormed hB.fits hI₂ hs hB.low he₂ ha
  obtain rfl : q = p := by omega
  -- the block stays live and the byte stays as it is
  have hkeep : (∃ space, SysInv mmap (pmmInit mmap m).2 root s space) ∧ e ∈ s.live ∧ memOf s q = x := by
    refine (hrun₂.restrict hno).invariant (I := fun s => (∃ space,
      SysInv mmap (pmmInit mmap m).2 root s space) ∧ e ∈ s.live ∧ memOf s q = x) ⟨⟨_, hI₂⟩, he₂, ?_⟩ ?_
    · rw [hmem, Function.update_self]
    · rintro u o v ⟨⟨space, hI⟩, hu, hx⟩ ⟨hst, hne, hns⟩
      obtain ⟨hI', hk⟩ := sysInv_step hB.wellFormed hB.fits hI hs hB.low hB.home hst
      obtain ⟨h1, h2⟩ := hk e hu hne
      exact ⟨⟨_, hI'⟩, h1, (h2 q hp hns).trans hx⟩
  obtain ⟨⟨space, hI⟩, hes, hx⟩ := hkeep
  obtain ⟨p, -, hqp, -, htr⟩ := translate_payload hB.wellFormed hB.fits hI hs hB.low hes ha
  obtain rfl : q = p := by omega
  rw [readByte, htr, Option.map_some, hx]

end Runs

/-- **Live blocks are private.** -/
structure Private (mmap : List MmapEntry) (root : ℕ) (s : HeapState) : Prop where
  /-- No two blocks share a byte. -/
  apart : s.live.Pairwise fun e e' => Disjoint (blockOf e) (blockOf e')
  /-- The addresses from the pointer on lead to the block, behind its metadata. -/
  own : ∀ e ∈ s.live, ∀ a ∈ payload e, ∃ p ∈ blockOf e, ofUser e.1 + 2 ≤ p ∧
    translate (memOf s) (physOf root) a = some p
  /-- No table of the tree shares a byte with a block. -/
  tables : ∀ e ∈ s.live, ∀ q t, q.length ≤ 3 →
    follow (presentAt (memOf s)) tableOf (physOf root) q = some t → Disjoint (blockOf e) (page t)
  /-- Neither does the bitmap. -/
  bitmap : ∀ e ∈ s.live, Disjoint (blockOf e) (bitmapBytes mmap)
  /-- `free` gives a block back to its allocator, unless it is the first buffer of a slab. -/
  back : ∀ e ∈ s.live, (∀ k, e.2 = .slab k → ofUser e.1 % 4096 ≠ 0) → GivenBack s.heap e.1 e.2

/-- **Live blocks are private** in every state of a run. -/
theorem blocks_private {m : Mem} {ops : List MemOp} (hB : Boot mmap m root h)
    (hrun : Run (LawfulStep (pmmInit mmap m).2 root) ⟨h, []⟩ ops s) : Private mmap root s := by
  have hI := sysInv_run hB hrun
  have hs : ShortEntries (pmmInit mmap m).2 := hB.short.placeBitmap
  obtain ⟨T, pg, vs, L, pm, hR, hC, hlive⟩ := hI.owned
  refine ⟨hI.apart, fun e he a ha => ?_, fun e he q t hq hqt => Set.disjoint_left.mpr fun p hp => ?_,
    fun e he => block_apart_bitmap hC hB.wellFormed hB.fits (hlive e he),
    fun e he hk => hC.givenBack hB.wellFormed hB.fits (hlive e he) hk⟩
  · obtain ⟨p, hp, -, h2, htr⟩ := translate_payload hB.wellFormed hB.fits hI hs hB.low he ha
    exact ⟨p, hp, h2, htr⟩
  · exact block_not_fixed hC hB.wellFormed hB.fits (hlive e he) hp (hR.1.reached q t hq hqt)

/-! ### A device page, two blocks and two stores -/

section Lawful
variable (hw : WellFormed mmap) (hf : Fits mmap) (hI : SysInv mmap entries root s space)

include hw hf hI in
theorem store_lawful (hs : ShortEntries entries) (hlow : topPage mmap ≤ 2 ^ 20) (he : e ∈ s.live)
    (ha : a ∈ payload e) (x : UInt8) :
    ∃ t, LawfulStep entries root s (.store a x) t ∧ t.live = s.live := by
  obtain ⟨p, -, -, -, htr⟩ := translate_payload hw hf hI hs hlow he ha
  exact ⟨withMem s (Function.update (memOf s) p x), ⟨⟨p, htr, rfl⟩, e, he, ha⟩, rfl⟩

include hI in
/-- An unmap of a page that is mapped needs no page. -/
theorem unmap_lawful {v : ℕ} (hv : v < 2 ^ 64) (h0 : initSpace entries (pageNumber v) = none)
    (hmap : space (pageNumber v) ≠ none) :
    ∃ t, LawfulStep entries root s (.vmm (.unmap v)) t ∧ t.live = s.live := by
  obtain ⟨T, -, -, -, -, hR, -, -⟩ := hI.owned
  obtain ⟨x, hx⟩ := Option.ne_none_iff_exists'.mp hmap
  have hwalk : walk (memOf s) (physOf root) v = some x := (hR.2 v).trans hx
  rw [walk, lookup, Option.bind_eq_some_iff] at hwalk
  obtain ⟨t, ht, -⟩ := hwalk
  exact ⟨_, ⟨⟨hv, rfl⟩, h0, (VirtInit.complete_served hR.1 hv ht).1⟩, rfl⟩

end Lawful

/-- Right after the boot there are pages for the tables of any call. -/
theorem boot_served {lo root : ℕ} {s₁ : Machine Pmm} {h : Heap} {T : List ℕ}
    (hB : VirtInit.Boots mmap lo) (hT : T.length ≤ 21505) (hR : Refines root ⟨h.machine, T⟩ space)
    (hC : Core mmap {t | t ∈ T} s₁.mem h pg vs L pm)
    (hpm : ∀ b ∈ pm, b.2 = 1 ∧ (b.1 ∈ T ∨ ∃ k < 8, b.1 = h.slabCaches k ∨ b.1 = pg k)) {o : VmmOp}
    (hv : o.Valid) : Mm.VirtSpec.AllServed pmmSource h.machine root (alignDown o.virt 4096) o.flags := by
  set base := pm.filter fun b => ¬ (b.2 = 1 ∧ b.1 ∈ T) with hbase
  set own : Finset ℕ := (Finset.range 8).image h.slabCaches ∪ (Finset.range 8).image pg with hown
  have hcard : own.card ≤ 16 :=
    (Finset.card_union_le _ _).trans (Nat.add_le_add Finset.card_image_le Finset.card_image_le)
  have hsub : ∀ b ∈ base, b.2 = 1 ∧ b.1 ∈ own := by
    intro b hb
    obtain ⟨hb, hn⟩ := List.mem_filter.mp hb
    obtain ⟨h1, h2⟩ := hpm b hb
    refine ⟨h1, ?_⟩
    rcases h2 with h2 | ⟨k, hk, h2⟩
    · exact absurd ⟨h1, h2⟩ (of_decide_eq_true hn)
    · rw [hown, Finset.mem_union, Finset.mem_image, Finset.mem_image]
      exact h2.imp (fun h2 => ⟨k, Finset.mem_range.mpr hk, h2.symm⟩)
        fun h2 => ⟨k, Finset.mem_range.mpr hk, h2.symm⟩
  have hroom : ∀ (m : Machine Pmm) (T' : List ℕ), Over mmap base m {t | t ∈ T'} →
      T'.length < T.length + 3 → (pmmSource.allocz m).1 ≠ 0 := by
    rintro m T' ⟨live, hI, hlive, -⟩ hlen
    have hH : Handed mmap m ((T'.toFinset ∪ (base.map Prod.fst).toFinset : Finset ℕ) : Set ℕ) := by
      refine ⟨live, hI, fun b => (hlive b).trans ?_⟩
      simp only [Finset.coe_union, Set.mem_union, Finset.mem_coe, List.mem_toFinset, List.mem_map]
      constructor
      · rintro (hb | ⟨h1, h2⟩)
        · exact ⟨(hsub b hb).1, Or.inr ⟨b, hb, rfl⟩⟩
        · exact ⟨h1, Or.inl h2⟩
      · rintro ⟨h1, h2 | ⟨b', hb', h2⟩⟩
        · exact Or.inr ⟨h1, h2⟩
        · rw [show b = b' from Prod.ext h2.symm (h1.trans (hsub b' hb').1.symm)]
          exact Or.inl hb'
    refine hB.serves hH ?_
    have h1 := Finset.card_union_le T'.toFinset (base.map Prod.fst).toFinset
    have h2 := List.toFinset_card_le T'
    have h3 : (base.map Prod.fst).toFinset.card ≤ own.card := by
      refine Finset.card_le_card fun x hx => ?_
      obtain ⟨b, hb, rfl⟩ := List.mem_map.mp (List.mem_toFinset.mp hx)
      exact (hsub b hb).2
    omega
  exact VirtInit.allServed_of_room (s := ⟨h.machine, T⟩)
    (pmmSource_over hB.wellFormed hB.fits hB.home base) hroom hR.1 (core_beside hC).1 hv le_rfl

theorem mem_payload (h1 : ptr ≤ a) (h2 : a < ptr + 126) : a ∈ payload (ptr, .slab 5) := by
  have hsize : blockSize (.slab 5) = 128 := by decide
  rw [payload, Set.mem_Ico]
  dsimp only
  omega

/-- The entries `vmm_init` is given, with 128 MiB. -/
def bootEntries : List MmapEntry := (pmmInit VirtInit.bootMap fun _ => 0).2

/-- A virtual address that `vmm_init` leaves unmapped. -/
def device : ℕ := 0x100000000

/-- The call that maps the registers of a device there. -/
def mapDevice : VmmOp := .map 0xFEE00000 device .kernelReadWrite

/-- The device is mapped, and two blocks of 100 bytes are allocated. -/
def setup : List MemOp := [.vmm mapDevice, .heap (.malloc 100), .heap (.malloc 100)]

/-- A store to the block behind `ptr`, and the device is unmapped. -/
def teardown (ptr : ℕ) : List MemOp := [.store (ptr + 128) 66, .vmm (.unmap device)]

theorem foldl_setup (space : ℕ → Option ℕ) : setup.foldl nextSpace space =
    Function.update space (pageNumber device) (some 0xFEE00003) := rfl

theorem foldl_teardown (space : ℕ → Option ℕ) : (teardown ptr).foldl nextSpace space =
    Function.update space (pageNumber device) none := rfl

theorem foldl_store (space : ℕ → Option ℕ) {x : UInt8} :
    [MemOp.store a x].foldl nextSpace space = space := rfl

theorem boot_stores : ∃ root h s₁ s₂ s₃ ptr, Boot VirtInit.bootMap (fun _ => 0) root h ∧
    Run (LawfulStep bootEntries root) ⟨h, []⟩ setup s₁ ∧
    s₁.live = [(ptr + 128, .slab 5), (ptr, .slab 5)] ∧
    LawfulStep bootEntries root s₁ (.store ptr 65) s₂ ∧
    Run (LawfulStep bootEntries root) s₂ (teardown ptr) s₃ := by
  have hboots := VirtInit.bootMap_boots
  have hmap : bootEntries = [⟨0x102000, 0x7ffe000, .usable⟩] := VirtInit.bootMap_placed
  obtain ⟨root, s₀, h, T, pg, pm, hserved, hvmm, hheap, hT, hR, hC, hpm⟩ :=
    Libk.MallocReach.boot_heap hboots (fun _ => 0) (by
      show ∀ e ∈ bootEntries, _
      rw [hmap]
      simp
      decide)
  have htop : topPage VirtInit.bootMap = 0x8100 := by decide
  have hw := hboots.wellFormed
  have hf := hboots.fits
  have hB : Boot VirtInit.bootMap (fun _ => 0) root h :=
    ⟨hw, hf, hboots.home, by simp [ShortEntries, VirtInit.bootMap], by rw [htop]; norm_num, hserved,
      s₀, _, _, hvmm, hheap⟩
  have hs : ShortEntries bootEntries := hB.short.placeBitmap
  have hdevice : initSpace bootEntries (pageNumber device) = none :=
    VirtInit.initSpace_above hs (by decide) (by decide)
  -- the device is mapped
  have hR' : Refines root ⟨h.machine, T⟩ (initSpace bootEntries) := refines_same hR hC.kept
  have hv : mapDevice.Valid := ⟨by decide, by decide, by decide⟩
  have hall := boot_served hboots hT hR' hC hpm hv
  obtain ⟨T', pm', -, hC₁, -⟩ := vmm_apart hC hw hf hboots.home hR' hv hall
  have hstep₁ : LawfulStep bootEntries root ⟨h, []⟩ (.vmm mapDevice)
      ⟨{ h with machine := Mm.VirtSpec.exec pmmSource root h.machine mapDevice }, []⟩ :=
    ⟨⟨hv, rfl⟩, hdevice, hall⟩
  -- the two blocks
  obtain ⟨l, hl⟩ := takeFirst_fresh (pg 5)
  have hr : mallocRoute 100 = .slab 5 := by decide
  obtain ⟨h₂, hs₂, -, hC₂, -⟩ := hC₁.malloc_step [] hw hf hr (by norm_num) (by norm_num) hl
  obtain ⟨h₃, hs₃, -⟩ := hC₂.malloc_step [(toUser (pg 5), .slab 5)] hw hf hr (by norm_num) (by norm_num)
    (v := [⟨pg 5, l⟩]) (b := pg 5 + 128) (by simp [SlabView.takeFirst])
  have hpg := (hC₁.pages_block hw hf (hC₁.fixed _ (slab_mem (k := 5) (by norm_num)))).1
  have hptr : toUser (pg 5 + 128) = toUser (pg 5) + 128 := by
    rw [toUser_eq (by omega), toUser_eq (by omega)]
    omega
  rw [hptr] at hs₃
  have hrun : Run (LawfulStep bootEntries root) ⟨h, []⟩ setup
      ⟨h₃, [(toUser (pg 5) + 128, .slab 5), (toUser (pg 5), .slab 5)]⟩ :=
    .cons hstep₁ (.cons hs₂ (.cons hs₃ .nil))
  -- the stores and the unmap
  obtain ⟨s₂, hst₂, hl₂⟩ := store_lawful hw hf (sysInv_run hB hrun) hs hB.low
    (List.mem_cons_of_mem _ (List.mem_singleton_self _)) (mem_payload le_rfl (by omega)) 65
  obtain ⟨s₃, hst₃, -⟩ := store_lawful hw hf (sysInv_run hB (hrun.snoc hst₂)) hs hB.low
    (by rw [hl₂]; exact List.mem_cons_self ..) (mem_payload le_rfl (by omega)) 66
  obtain ⟨s₄, hst₄, -⟩ := unmap_lawful (sysInv_run hB ((hrun.snoc hst₂).snoc hst₃)) (v := device)
    (by decide) hdevice (by
      rw [List.foldl_append, List.foldl_append, foldl_setup, foldl_store, foldl_store,
        Function.update_self]
      exact Option.some_ne_none _)
  exact ⟨root, h, _, s₂, s₄, _, hB, hrun, rfl, hst₂, .cons hst₃ (.cons hst₄ .nil)⟩

/-- The first byte is still there after the other store and the unmap. -/
theorem load_last_store_boot : ∃ root h s ptr, Boot VirtInit.bootMap (fun _ => 0) root h ∧
    Run (LawfulStep bootEntries root) ⟨h, []⟩ (setup ++ [.store ptr 65] ++ teardown ptr) s ∧
    readByte root s ptr = some 65 := by
  obtain ⟨root, h, s₁, s₂, s₃, ptr, hB, hrun₁, hl, hst, hrun₂⟩ := boot_stores
  refine ⟨root, h, s₃, ptr, hB, (hrun₁.snoc hst).append hrun₂,
    load_last_store hB hrun₁ (e := (ptr, .slab 5)) (by rw [hl]; simp) (mem_payload le_rfl (by omega))
      hst hrun₂ fun o ho => ?_⟩
  simp only [teardown, List.mem_cons, List.not_mem_nil, or_false] at ho
  rcases ho with rfl | rfl <;> simp

/-- The device is mapped until it is unmapped, and the heap window leads to physical memory. -/
theorem translation_of_calls_boot : ∃ root h s₂ s₃ ptr, Boot VirtInit.bootMap (fun _ => 0) root h ∧
    Run (LawfulStep bootEntries root) ⟨h, []⟩ (setup ++ [.store ptr 65]) s₂ ∧
    Run (LawfulStep bootEntries root) s₂ (teardown ptr) s₃ ∧
    walk (memOf s₂) (physOf root) (device + 0x20) = some 0xFEE00003 ∧
    walk (memOf s₂) (physOf root) heapStartAddr = some 3 ∧
    walk (memOf s₃) (physOf root) (device + 0x20) = none := by
  obtain ⟨root, h, s₁, s₂, s₃, ptr, hB, hrun₁, -, hst, hrun₂⟩ := boot_stores
  have hs : ShortEntries bootEntries := hB.short.placeBitmap
  have hrun := hrun₁.snoc hst
  have hwalk := translation_of_calls hB hrun
  have hdevice : pageNumber (device + 0x20) = pageNumber device := by decide
  have hheap : pageNumber heapStartAddr ≠ pageNumber device := by decide
  refine ⟨root, h, s₂, s₃, ptr, hB, hrun, hrun₂, (hwalk _).trans ?_, (hwalk _).trans ?_,
    (translation_of_calls hB (hrun.append hrun₂) _).trans ?_⟩
  · rw [List.foldl_append, foldl_setup, foldl_store, hdevice, Function.update_self]
  · rw [List.foldl_append, foldl_setup, foldl_store, Function.update_of_ne hheap]
    exact VirtInit.initSpace_heap hs (k := 0) (by norm_num)
  · rw [List.foldl_append, foldl_teardown, hdevice, Function.update_self]

theorem blocks_private_boot : ∃ root h s ptr, Boot VirtInit.bootMap (fun _ => 0) root h ∧
    Run (LawfulStep bootEntries root) ⟨h, []⟩ setup s ∧
    s.live = [(ptr + 128, .slab 5), (ptr, .slab 5)] ∧ Private VirtInit.bootMap root s := by
  obtain ⟨root, h, s₁, s₂, s₃, ptr, hB, hrun₁, hl, -, -⟩ := boot_stores
  exact ⟨root, h, s₁, ptr, hB, hrun₁, hl, blocks_private hB hrun₁⟩

end FusionCore.Sys.MemorySpec
