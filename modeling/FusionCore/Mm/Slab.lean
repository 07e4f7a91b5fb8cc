import FusionCore.Mm.Pages

/-! # The slab allocator (`mm/slab.c`)

The functions over a page source. A cache, a slab and a bufctl are records in memory, named by their
addresses; their fields are words at fixed offsets. A slab lies in the last 32 bytes of its page, the
bufctls are the free buffers themselves.

The cursor `cache->slabs` is kept in memory as the source keeps it. The loops over the slab list end when
a link is NULL; the model gives them `fuel` and reports `outOfFuel` where they would go on.
`log(PANIC, ..)` does not return. -/

namespace FusionCore.Mm.Slab

open FusionCore.Lib.ByteMem FusionCore.Mm.Defs FusionCore.Mm.Pages

variable {σ : Type}

/-- Why a call does not return. -/
inductive Halt
  | panic (msg : String)
  | outOfFuel
  deriving DecidableEq, Repr

theorem map_eq_ok {α β : Type} {r : Except Halt α} {f : α → β} {b : β} (h : r.map f = .ok b) :
    ∃ a, r = .ok a ∧ f a = b := by
  cases r with
  | error e => cases h
  | ok a => exact ⟨a, rfl, Except.ok.inj h⟩

/-- `slab_flags_t`: `SLAB_PANIC` and `SLAB_AUTO_GROW`. -/
structure SlabFlags where
  panic : Bool
  autoGrow : Bool
  deriving DecidableEq, Repr

/-! ### Fields -/

/-- `slab_cache_t.name`. -/
def cacheName (cache : ℕ) : ℕ := cache

/-- `slab_cache_t.slab_size`. -/
def cacheSlabSize (cache : ℕ) : ℕ := cache + 8

/-- `slab_cache_t.bufctl_count_max`. -/
def cacheMax (cache : ℕ) : ℕ := cache + 16

/-- `slab_cache_t.slabs_head`. -/
def cacheHead (cache : ℕ) : ℕ := cache + 24

/-- `slab_cache_t.slabs`. -/
def cacheSlabs (cache : ℕ) : ℕ := cache + 32

/-- `slab_t.next`. -/
def slabNext (slab : ℕ) : ℕ := slab

/-- `slab_t.bufctl_count`. -/
def slabCount (slab : ℕ) : ℕ := slab + 8

/-- `slab_t.freelist_head`. -/
def slabFreeHead (slab : ℕ) : ℕ := slab + 16

/-- `slab_t.freelist`. -/
def slabFree (slab : ℕ) : ℕ := slab + 24

/-- `slab_bufctl_t.next`. -/
def bufctlNext (bufctl : ℕ) : ℕ := bufctl

/-- `slab_bufctl_t.ptr`. -/
def bufctlPtr (bufctl : ℕ) : ℕ := bufctl + 8

/-! ### Growing -/

/-- `slab_create_bufctl`. -/
def slabCreateBufctl (A : PageSource σ) (s : Machine σ) : ℕ × Machine σ :=
  let r := A.allocz s
  if r.1 = 0 then (0, r.2)
  else (r.1, { r.2 with mem := store64 r.2.mem (bufctlNext r.1) 0 })

/-- `slab_create_slab`. -/
def slabCreateSlab (m : Mem) (cache bufctl : ℕ) : Mem :=
  let slab := (bufctl + 4096 - 32) % 2 ^ 64
  let m := store64 m (slabNext slab) 0
  let m := store64 m (slabCount slab) (load64 m (cacheMax cache))
  let m := store64 m (slabFreeHead slab) 0
  let m := store64 m (slabFree slab) 0
  if load64 m (cacheSlabs cache) = 0 then
    let m := store64 m (cacheHead cache) slab
    store64 m (cacheSlabs cache) slab
  else
    let m := store64 m (slabNext (load64 m (cacheSlabs cache))) slab
    store64 m (cacheSlabs cache) (load64 m (slabNext (load64 m (cacheSlabs cache))))

/-- `slab_init_bufctls`. -/
def slabInitBufctls (m : Mem) (cache bufctl index : ℕ) : Mem :=
  let newBufctl := (bufctl + load64 m (cacheSlabSize cache) * index) % 2 ^ 64
  let m := store64 m (bufctlPtr newBufctl) newBufctl
  let slab := load64 m (cacheSlabs cache)
  if load64 m (slabFree slab) = 0 then
    let m := store64 m (slabFreeHead slab) newBufctl
    store64 m (slabFree slab) newBufctl
  else
    let m := store64 m (bufctlNext (load64 m (slabFree slab))) newBufctl
    store64 m (slabFree slab) (load64 m (bufctlNext (load64 m (slabFree slab))))

/-- The loop of `slab_cache_grow` over the bufctls of a page, after `n` iterations. -/
def initBufctls (m : Mem) (cache bufctl : ℕ) : ℕ → Mem
  | 0 => m
  | n + 1 => slabInitBufctls (initBufctls m cache bufctl n) cache bufctl n

/-- The loop of `slab_cache_grow` with `n` iterations left. The bound of the inner loop is not written
in it and is read once. -/
def growLoop (A : PageSource σ) (flags : SlabFlags) (cache : ℕ) : ℕ → Machine σ → Except Halt (Machine σ)
  | 0, s => .ok s
  | n + 1, s =>
    let r := slabCreateBufctl A s
    if r.1 = 0 then
      if flags.panic then .error (.panic "Slab cache grow ('%s'): Couldn't create bufctl\n") else .ok r.2
    else
      let m := slabCreateSlab r.2.mem cache r.1
      growLoop A flags cache n { r.2 with mem := initBufctls m cache r.1 (load64 m (cacheMax cache)) }

/-- `slab_cache_grow`. -/
def slabCacheGrow (A : PageSource σ) (flags : SlabFlags) (cache count : ℕ) (s : Machine σ) :
    Except Halt (Machine σ) :=
  if cache = 0 then
    if flags.panic then .error (.panic "slab_cache_grow(): Cache doesn't exist\n") else .ok s
  else
    growLoop A flags cache count
      { s with mem := store64 s.mem (cacheSlabs cache) (load64 s.mem (cacheHead cache)) }

/-! ### Creation -/

/-- `is_power_of_two`, on the values that pass the first assertion. -/
def isPowerOfTwo (num : ℕ) : Bool := decide (0 < num) && (num &&& (num - 1) == 0)

/-- `slab_cache_create`. -/
def slabCacheCreate (A : PageSource σ) (flags : SlabFlags) (name slabSize : ℕ) (s : Machine σ) :
    Except Halt (ℕ × Machine σ) :=
  if ¬ slabSize ≤ 512 then .error (.panic "Assert failed at: %s:%d with %s as the condition\n")
  else if ¬ isPowerOfTwo slabSize then
    .error (.panic "Assert failed at: %s:%d with %s as the condition\n")
  else
    let r := A.allocz s
    let cache := r.1
    if cache = 0 then
      if flags.panic then .error (.panic "slab_cache_create('%s'): Couldn't allocate memory\n")
      else .ok (0, r.2)
    else
      let m := store64 r.2.mem (cacheName cache) name
      let m := store64 m (cacheSlabSize cache) slabSize
      let m := store64 m (cacheMax cache) ((4096 - 40) / load64 m (cacheSlabSize cache))
      let m := store64 m (cacheSlabs cache) 0
      match slabCacheGrow A flags cache 1 { r.2 with mem := m } with
      | .error e => .error e
      | .ok s' => .ok (cache, s')

/-! ### Allocation and release -/

/-- The search loop of `slab_cache_alloc` and `slab_cache_free`: move the cursor to the first slab that
passes the test, or to NULL. -/
def seek (test : Mem → ℕ → Bool) (cache : ℕ) : ℕ → Mem → Except Halt Mem
  | 0, _ => .error .outOfFuel
  | fuel + 1, m =>
    if load64 m (cacheSlabs cache) = 0 then .ok m
    else if test m (load64 m (cacheSlabs cache)) then .ok m
    else seek test cache fuel
      (store64 m (cacheSlabs cache) (load64 m (slabNext (load64 m (cacheSlabs cache)))))

/-- The slab has a free buffer. -/
def hasFree (m : Mem) (slab : ℕ) : Bool := decide (load64 m (slabFreeHead slab) ≠ 0)

/-- The slab counts fewer free buffers than it has room for. -/
def hasRoom (cache : ℕ) (m : Mem) (slab : ℕ) : Bool :=
  decide (load64 m (slabCount slab) < load64 m (cacheMax cache))

/-- Take the first free buffer of the slab at the cursor. -/
def takeBufctl (m : Mem) (cache : ℕ) : ℕ × Mem :=
  let slab := load64 m (cacheSlabs cache)
  let ptr := load64 m (slabFreeHead slab)
  let m := store64 m (slabFreeHead slab) (load64 m (bufctlNext ptr))
  (ptr, store64 m (slabCount slab) ((load64 m (slabCount slab) + (2 ^ 64 - 1)) % 2 ^ 64))

/-- Put a buffer on the free list of the slab at the cursor. -/
def putBufctl (m : Mem) (cache ptr : ℕ) : Mem :=
  let slab := load64 m (cacheSlabs cache)
  let m := store64 m (bufctlNext ptr) (load64 m (slabFreeHead slab))
  let m := store64 m (bufctlPtr ptr) ptr
  let m := store64 m (slabFreeHead slab) ptr
  store64 m (slabCount slab) ((load64 m (slabCount slab) + 1) % 2 ^ 64)

/-- `slab_cache_alloc`. -/
def slabCacheAlloc (A : PageSource σ) (flags : SlabFlags) (cache : ℕ) :
    ℕ → Machine σ → Except Halt (ℕ × Machine σ)
  | 0, _ => .error .outOfFuel
  | fuel + 1, s =>
    if cache = 0 then
      if flags.panic then .error (.panic "slab_cache_alloc(): Cache doesn't exist\n") else .ok (0, s)
    else
      match seek hasFree cache fuel
        (store64 s.mem (cacheSlabs cache) (load64 s.mem (cacheHead cache))) with
      | .error e => .error e
      | .ok m =>
        if load64 m (cacheSlabs cache) = 0 then
          if flags.autoGrow then
            match slabCacheGrow A flags cache 1 { s with mem := m } with
            | .error e => .error e
            | .ok s' => slabCacheAlloc A flags cache fuel s'
          else if flags.panic then
            .error (.panic "slab_cache_alloc('%s'): Couldn't find allocatable memory\n")
          else .ok (0, { s with mem := m })
        else .ok ((takeBufctl m cache).1, { s with mem := (takeBufctl m cache).2 })

/-- `slab_cache_free`. -/
def slabCacheFree (flags : SlabFlags) (cache ptr fuel : ℕ) (s : Machine σ) : Except Halt (Machine σ) :=
  if cache = 0 then
    if flags.panic then .error (.panic "slab_cache_free(): Cache doesn't exist\n") else .ok s
  else
    match seek (hasRoom cache) cache fuel
      (store64 s.mem (cacheSlabs cache) (load64 s.mem (cacheHead cache))) with
    | .error e => .error e
    | .ok m =>
      if load64 m (cacheSlabs cache) = 0 then
        if flags.panic then .error (.panic "slab_cache_free('%s'): Couldn't find a slab to be freed\n")
        else .ok { s with mem := m }
      else .ok { s with mem := putBufctl m cache ptr }

/-! ### Reaping -/

/-- The loop of `slab_cache_reap`. The second result lists the pointers given to `pmm_free`. -/
def reapLoop (A : PageSource σ) (cache : ℕ) : ℕ → ℕ → Machine σ → Except Halt (Machine σ × List ℕ)
  | 0, _, _ => .error .outOfFuel
  | fuel + 1, prev, s =>
    let slab := load64 s.mem (cacheSlabs cache)
    if slab = 0 then
      .ok ({ s with mem := store64 s.mem (cacheSlabs cache) (load64 s.mem (cacheHead cache)) }, [])
    else if load64 s.mem (slabCount slab) = load64 s.mem (cacheMax cache) then
      let m := if slab = load64 s.mem (cacheHead cache) then
        store64 s.mem (cacheHead cache) (load64 s.mem (slabNext slab)) else s.mem
      let m := store64 m (slabNext prev) (load64 m (slabNext slab))
      let s' := A.free { s with mem := m } slab
      let m := store64 s'.mem (cacheSlabs cache) (load64 s'.mem (slabNext prev))
      match reapLoop A cache fuel prev { s' with mem := m } with
      | .error e => .error e
      | .ok (s'', freed) => .ok (s'', slab :: freed)
    else
      reapLoop A cache fuel slab
        { s with mem := store64 s.mem (cacheSlabs cache) (load64 s.mem (slabNext slab)) }

/-- `slab_cache_reap`. -/
def slabCacheReap (A : PageSource σ) (flags : SlabFlags) (cache fuel : ℕ) (s : Machine σ) :
    Except Halt (Machine σ × List ℕ) :=
  if cache = 0 then
    if flags.panic then .error (.panic "slab_cache_reap(): Cache doesn't exist\n") else .ok (s, [])
  else
    let head := load64 s.mem (cacheHead cache)
    reapLoop A cache fuel head { s with mem := store64 s.mem (cacheSlabs cache) head }

/-! ### Destruction -/

/-- The loop of `slab_cache_destroy`. The first result says whether it came to the end of the list,
the last one lists the pointers given to `pmm_free`. -/
def destroyLoop (A : PageSource σ) (flags : SlabFlags) (cache : ℕ) :
    ℕ → Machine σ → Except Halt (Bool × Machine σ × List ℕ)
  | 0, _ => .error .outOfFuel
  | fuel + 1, s =>
    let slab := load64 s.mem (cacheSlabs cache)
    if slab = 0 then .ok (true, s, [])
    else if load64 s.mem (slabCount slab) ≠ load64 s.mem (cacheMax cache) then
      if flags.panic then
        .error (.panic "slab_cache_destroy('%s'): A slab wasn't completely free\n")
      else .ok (false, s, [])
    else
      let ptr := load64 s.mem (slabFreeHead slab)
      let s' := A.free s ptr
      let m := store64 s'.mem (cacheSlabs cache)
        (load64 s'.mem (slabNext (load64 s'.mem (cacheSlabs cache))))
      match destroyLoop A flags cache fuel { s' with mem := m } with
      | .error e => .error e
      | .ok (done, s'', freed) => .ok (done, s'', ptr :: freed)

/-- `slab_cache_destroy`. -/
def slabCacheDestroy (A : PageSource σ) (flags : SlabFlags) (cache fuel : ℕ) (s : Machine σ) :
    Except Halt (Machine σ × List ℕ) :=
  if cache = 0 then
    if flags.panic then .error (.panic "slab_cache_destroy(): Cache doesn't exist\n") else .ok (s, [])
  else
    let head := load64 s.mem (cacheHead cache)
    match destroyLoop A flags cache fuel { s with mem := store64 s.mem (cacheSlabs cache) head } with
    | .error e => .error e
    | .ok (false, s', freed) => .ok (s', freed)
    | .ok (true, s', freed) =>
      .ok (A.free { s' with mem := fill s'.mem cache 40 0 } cache, freed ++ [cache])

/-! ### Dump -/

/-- A line that `slab_cache_dump` prints. -/
inductive DumpLine
  | cache (name : ℕ)
  | slab (slabCount addr : ℕ)
  | bufctl (bufctlCount ptr : ℕ)
  deriving DecidableEq, Repr

/-- The inner loop of `slab_cache_dump`, over the free list of the slab at the cursor. -/
def dumpBufctls (cache : ℕ) : ℕ → ℕ → Mem → Except Halt (Mem × List DumpLine)
  | 0, _, _ => .error .outOfFuel
  | fuel + 1, bufctlCount, m =>
    let slab := load64 m (cacheSlabs cache)
    let ptr := load64 m (slabFree slab)
    if ptr = 0 then .ok (m, [])
    else
      match dumpBufctls cache fuel (bufctlCount + 1)
        (store64 m (slabFree slab) (load64 m (bufctlNext ptr))) with
      | .error e => .error e
      | .ok (m', out) => .ok (m', .bufctl bufctlCount ptr :: out)

/-- The outer loop of `slab_cache_dump`. -/
def dumpLoop (cache : ℕ) : ℕ → ℕ → Mem → Except Halt (Mem × List DumpLine)
  | 0, _, _ => .error .outOfFuel
  | fuel + 1, slabCount, m =>
    let slab := load64 m (cacheSlabs cache)
    if slab = 0 then .ok (m, [])
    else
      match dumpBufctls cache fuel 0 (store64 m (slabFree slab) (load64 m (slabFreeHead slab))) with
      | .error e => .error e
      | .ok (m₁, out) =>
        match dumpLoop cache fuel (slabCount + 1)
          (store64 m₁ (cacheSlabs cache) (load64 m₁ (slabNext (load64 m₁ (cacheSlabs cache))))) with
        | .error e => .error e
        | .ok (m', out') => .ok (m', .slab slabCount slab :: out ++ out')

/-- `slab_cache_dump`. The second result lists the lines it prints. -/
def slabCacheDump (flags : SlabFlags) (cache fuel : ℕ) (s : Machine σ) :
    Except Halt (Machine σ × List DumpLine) :=
  if load64 s.mem (cacheSlabs cache) = 0 then
    if flags.panic then .error (.panic "slab_cache_dump(): Slabs don't exist\n") else .ok (s, [])
  else
    match dumpLoop cache fuel 0 s.mem with
    | .error e => .error e
    | .ok (m, out) => .ok ({ s with mem := m }, .cache (load64 s.mem (cacheName cache)) :: out)

end FusionCore.Mm.Slab
