import FusionCore.Mm.Slab

/-! # The kernel heap (`libk/malloc.c`)

`malloc` takes a block of at most 512 bytes from one of eight slab caches and a larger one from the
physical memory manager; the two bytes before the pointer it returns hold the index of the cache or the
page count. `free` tells the two kinds apart by the alignment of the block.

`mallocRoute` and `freeRoute` name the allocator that `malloc` takes a block from and the one that `free`
gives it to; `malloc_eq` and `free_eq` split the functions there. -/

namespace FusionCore.Libk.Malloc

open FusionCore.Lib.ByteMem FusionCore.Mm.Defs FusionCore.Mm.Phys FusionCore.Mm.Pages FusionCore.Mm.Slab

/-- The machine and the words at `slab_caches`, an array of eight. -/
structure Heap where
  machine : Machine Pmm
  slabCaches : ℕ → ℕ

/-- `get_slab_cache_index`. -/
def getSlabCacheIndex (size : ℕ) : ℕ :=
  if size ≤ 32 then
    if size ≤ 8 then
      if size ≤ 4 then 0 else 1
    else
      if size ≤ 16 then 2 else 3
  else
    if size ≤ 128 then
      if size ≤ 64 then 4 else 5
    else
      if size ≤ 256 then 6 else 7

/-- The sizes that `malloc_heap_init` creates caches for, in order. -/
def heapSizes : List ℕ := [4, 8, 16, 32, 64, 128, 256, 512]

/-- The calls of `malloc_heap_init` from index `k` on. `names` are the addresses of the string
constants. -/
def createCaches (names : ℕ → ℕ) : List ℕ → ℕ → Heap → Except Halt Heap
  | [], _, h => .ok h
  | size :: sizes, k, h =>
    match slabCacheCreate pmmSource ⟨true, true⟩ (names k) size h.machine with
    | .error e => .error e
    | .ok (cache, s) => createCaches names sizes (k + 1) ⟨s, Function.update h.slabCaches k cache⟩

/-- `malloc_heap_init`. -/
def mallocHeapInit (names : ℕ → ℕ) (h : Heap) : Except Halt Heap := createCaches names heapSizes 0 h

/-- `ptr + sizeof(malloc_metadata_t) + HEAP_START_ADDR`. -/
def toUser (ptr : ℕ) : ℕ := (ptr + 2 + heapStartAddr) % 2 ^ 64

/-- `ptr - HEAP_START_ADDR - sizeof(malloc_metadata_t)`. -/
def ofUser (ptr : ℕ) : ℕ := (ptr + (2 ^ 64 - heapStartAddr) + (2 ^ 64 - 2)) % 2 ^ 64

/-- `malloc`. -/
def malloc (h : Heap) (fuel size : ℕ) : Except Halt (ℕ × Heap) :=
  if size ≤ 512 then
    let newSize := size + 2
    let index := getSlabCacheIndex newSize
    match slabCacheAlloc pmmSource ⟨true, false⟩ (h.slabCaches index) fuel h.machine with
    | .error e => .error e
    | .ok (ptr, s) => .ok (toUser ptr, { h with machine := { s with mem := store16 s.mem ptr index } })
  else
    let newSize := alignUp ((size + 2) % 2 ^ 64) 4096
    let pageCount := newSize / 4096
    let r := pmmAllocz h.machine pageCount
    .ok (toUser r.1, { h with machine := { r.2 with mem := store16 r.2.mem r.1 pageCount } })

/-- `free`. -/
def free (h : Heap) (fuel ptr : ℕ) : Except Halt Heap :=
  if ptr = 0 then .ok h
  else
    let ptr := ofUser ptr
    if ptr &&& 0xFFF ≠ 0 then
      let index := load16 h.machine.mem ptr
      match slabCacheFree ⟨true, false⟩ (h.slabCaches index) ptr fuel h.machine with
      | .error e => .error e
      | .ok s => .ok { h with machine := s }
    else
      let pageCount := load16 h.machine.mem ptr
      .ok { h with machine := pmmFree h.machine ptr pageCount }

/-! ### Which allocator -/

/-- An allocator of the heap: a cache, or the physical memory manager with a page count. -/
inductive Origin
  | slab (index : ℕ)
  | pages (count : ℕ)
  deriving DecidableEq, Repr

/-- What `malloc` writes before the block. -/
def Origin.metadata : Origin → ℕ
  | .slab index => index
  | .pages count => count

/-- The allocator that `malloc` takes a block of `size` bytes from. -/
def mallocRoute (size : ℕ) : Origin :=
  if size ≤ 512 then .slab (getSlabCacheIndex (size + 2))
  else .pages (alignUp ((size + 2) % 2 ^ 64) 4096 / 4096)

/-- Take a block. -/
def takeBlock (h : Heap) (fuel : ℕ) : Origin → Except Halt (ℕ × Machine Pmm)
  | .slab index => slabCacheAlloc pmmSource ⟨true, false⟩ (h.slabCaches index) fuel h.machine
  | .pages count => .ok (pmmAllocz h.machine count)

/-- The allocator that `free` gives a block to. -/
def freeRoute (m : Mem) (block : ℕ) : Origin :=
  if block % 4096 ≠ 0 then .slab (load16 m block) else .pages (load16 m block)

/-- Give a block back. -/
def giveBlock (h : Heap) (fuel block : ℕ) : Origin → Except Halt (Machine Pmm)
  | .slab index => slabCacheFree ⟨true, false⟩ (h.slabCaches index) block fuel h.machine
  | .pages count => .ok (pmmFree h.machine block count)

theorem malloc_eq (h : Heap) (fuel size : ℕ) :
    malloc h fuel size = (takeBlock h fuel (mallocRoute size)).map fun r =>
      (toUser r.1, { h with machine :=
        { r.2 with mem := store16 r.2.mem r.1 (mallocRoute size).metadata } }) := by
  unfold malloc mallocRoute
  split_ifs with hs
  · simp only [takeBlock, Origin.metadata]
    cases slabCacheAlloc pmmSource ⟨true, false⟩ (h.slabCaches (getSlabCacheIndex (size + 2))) fuel
      h.machine <;> rfl
  · rfl

theorem free_eq (h : Heap) (fuel : ℕ) {ptr : ℕ} (h0 : ptr ≠ 0) :
    free h fuel ptr = (giveBlock h fuel (ofUser ptr) (freeRoute h.machine.mem (ofUser ptr))).map fun s =>
      { h with machine := s } := by
  have hm : ofUser ptr &&& 0xFFF = ofUser ptr % 4096 := Nat.and_two_pow_sub_one_eq_mod _ 12
  unfold free freeRoute
  rw [if_neg h0]
  dsimp only
  rw [hm]
  split_ifs with ha
  · simp only [giveBlock]
    cases slabCacheFree ⟨true, false⟩ (h.slabCaches (load16 h.machine.mem (ofUser ptr))) (ofUser ptr) fuel
      h.machine <;> rfl
  · rfl

end FusionCore.Libk.Malloc
