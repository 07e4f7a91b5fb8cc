import FusionCore.Libk.MallocReach

/-! # Kernel memory after the boot

The heap, the page tables and the code that uses them run on one machine. A state is that of a run of the
heap: the machine with the caches, and the live blocks. A step is a call of `malloc` or `free`, a call of
`vmm_map_page` or `vmm_unmap_page` on `root_page_tbl`, or a store of one byte at a virtual address,
which the page tables translate. -/

namespace FusionCore.Sys.Memory

open FusionCore.Lib.ByteMem
open FusionCore.Mm.Defs FusionCore.Mm.Phys FusionCore.Mm.Pages FusionCore.Mm.PhysInit
open FusionCore.Libk.Malloc FusionCore.Libk.MallocInit FusionCore.Libk.MallocRun
open FusionCore.Libk.MallocReach (translate)
open FusionCore.Mm.Virt (pageNumber vmmInit)
open FusionCore.Mm.VirtSpec (VmmOp AllServed)
open FusionCore.Mm.VirtInit (ShortEntries InitServed initSpace)

/-- A step of kernel code. -/
inductive MemOp
  | heap (o : HeapOp)
  | vmm (o : VmmOp)
  | store (addr : ℕ) (x : UInt8)

/-- The machine with another memory. -/
def withMem (s : HeapState) (m : Mem) : HeapState :=
  { s with heap := { s.heap with machine := { s.heap.machine with mem := m } } }

/-- The memory of a state. -/
def memOf (s : HeapState) : Mem := s.heap.machine.mem

/-- One step that returns; a store to an address without a translation faults. -/
def MemStep (root : ℕ) (s : HeapState) (o : MemOp) (s' : HeapState) : Prop :=
  match o with
  | .heap o => Libk.MallocRun.Step s o s'
  | .vmm o => o.Valid ∧ s' = { s with heap :=
      { s.heap with machine := Mm.VirtSpec.exec pmmSource root s.heap.machine o } }
  | .store addr x => ∃ p, translate (memOf s) (physOf root) addr = some p ∧
      s' = withMem s (Function.update (memOf s) p x)

/-- The byte that a load from a virtual address gives. -/
def readByte (root : ℕ) (s : HeapState) (addr : ℕ) : Option UInt8 :=
  (translate (memOf s) (physOf root) addr).map (memOf s)

/-- The bytes of a block with its metadata. -/
def blockSize : Origin → ℕ
  | .slab k => classSize k
  | .pages n => n * 4096

/-- The physical bytes of a block. -/
def blockOf (e : ℕ × Origin) : Set ℕ := Set.Ico (ofUser e.1) (ofUser e.1 + blockSize e.2)

/-- The virtual addresses that belong to whoever called `malloc`. -/
def payload (e : ℕ × Origin) : Set ℕ := Set.Ico e.1 (e.1 + (blockSize e.2 - 2))

/-- **The condition on a step**: that of the heap on its calls; a page that `vmm_init` has left
unmapped, and pages for its tables; and a store into a live block. -/
def MemMeets (entries : List MmapEntry) (root : ℕ) (s : HeapState) : MemOp → Prop
  | .heap o => Libk.MallocRun.Meets s o
  | .vmm o => initSpace entries (pageNumber o.virt) = none ∧
      AllServed pmmSource s.heap.machine root (alignDown o.virt 4096) o.flags
  | .store addr _ => ∃ e ∈ s.live, addr ∈ payload e

/-- A step that meets the condition. -/
def LawfulStep (entries : List MmapEntry) (root : ℕ) (s : HeapState) (o : MemOp)
    (s' : HeapState) : Prop :=
  MemStep root s o s' ∧ MemMeets entries root s o

/-- The pages mapped by a step. -/
def nextSpace (space : ℕ → Option ℕ) : MemOp → ℕ → Option ℕ
  | .vmm o => Mm.VirtSpec.next space o
  | .heap _ => space
  | .store _ _ => space

/-- **The boot**: `pmm_init`, `vmm_init` and `malloc_heap_init` on a machine whose usable memory lies
below 4 GiB, where the heap window ends. -/
structure Boot (mmap : List MmapEntry) (m : Mem) (root : ℕ) (h : Heap) : Prop where
  wellFormed : WellFormed mmap
  fits : Fits mmap
  home : homeBase mmap ≠ 0
  short : ShortEntries mmap
  low : topPage mmap ≤ 2 ^ 20
  served : InitServed pmmSource (pmmInit mmap m).2 (pmmInit mmap m).1
  booted : ∃ s₁ names caches, vmmInit pmmSource (pmmInit mmap m).2 (pmmInit mmap m).1 = some (root, s₁) ∧
    mallocHeapInit names ⟨s₁, caches⟩ = .ok h

end FusionCore.Sys.Memory
