import FusionCore.Mm.Pages
import FusionCore.Lib.Radix

/-! # Paging (`mm/virt.c`)

The page-table functions over a page source. A table is a page of 512 entries of eight bytes in physical
memory; the root is named by a kernel pointer, the others by their physical addresses. `invlpg` has no
effect on memory and is left out.

`walk` is the processor's translation: nine bits of the address per level, the present bit required at
every level, the next table in bits 51..12 of the entry. -/

namespace FusionCore.Mm.Virt

open FusionCore.Lib.ByteMem FusionCore.Lib.Radix FusionCore.Mm.Defs FusionCore.Mm.Phys FusionCore.Mm.Pages

/-- `vmm_map_priv_t`. -/
inductive MapPriv
  | kernelRead
  | kernelReadWrite
  | userRead
  | userReadWrite
  deriving DecidableEq, Repr

/-- The page-table flags of a privilege: present, read/write (bit 1), user (bit 2). -/
def MapPriv.flags : MapPriv → ℕ
  | .kernelRead => 1
  | .kernelReadWrite => 1 ||| 1 <<< 1
  | .userRead => 1 ||| 1 <<< 2
  | .userReadWrite => 1 ||| 1 <<< 1 ||| 1 <<< 2

variable {σ : Type}

/-- The nine index bits of `virt` from bit `shift` on. -/
def pmlIndex (virt shift : ℕ) : ℕ := (virt &&& 0x1ff <<< shift) >>> shift

/-- `vmm_get_or_create_pml`. -/
def vmmGetOrCreatePml (A : PageSource σ) (s : Machine σ) (pml pmlIndex flags : ℕ) : ℕ × Machine σ :=
  let entry := physOf pml + 8 * pmlIndex
  let s' :=
    if load64 s.mem entry &&& 1 = 0 then
      let r := A.allocz s
      { r.2 with mem := store64 r.2.mem entry (r.1 ||| flags) }
    else s
  -- `~(511)` is `2 ^ 64 - 512`
  (load64 s'.mem entry &&& (2 ^ 64 - 512), s')

/-- `vmm_set_pt_value`. -/
def vmmSetPtValue (A : PageSource σ) (s : Machine σ) (pageTbl virtPage flags value : ℕ) : Machine σ :=
  let pdpt := vmmGetOrCreatePml A s pageTbl (pmlIndex virtPage 39) flags
  let pd := vmmGetOrCreatePml A pdpt.2 pdpt.1 (pmlIndex virtPage 30) flags
  let pt := vmmGetOrCreatePml A pd.2 pd.1 (pmlIndex virtPage 21) flags
  { pt.2 with mem := store64 pt.2.mem (physOf pt.1 + 8 * pmlIndex virtPage 12) value }

/-- `vmm_map_page`. -/
def vmmMapPage (A : PageSource σ) (s : Machine σ) (pageTbl physPage virtPage flags : ℕ) : Machine σ :=
  vmmSetPtValue A s pageTbl (alignDown virtPage 4096) flags (physPage ||| flags)

/-- `vmm_unmap_page`. -/
def vmmUnmapPage (A : PageSource σ) (s : Machine σ) (pageTbl virtPage : ℕ) : Machine σ :=
  vmmSetPtValue A s pageTbl (alignDown virtPage 4096) 0 0

/-- The loop of `vmm_map_range` with `n` iterations left, at `i`. -/
def mapPages (A : PageSource σ) (pageTbl offset flags : ℕ) : ℕ → ℕ → Machine σ → Machine σ
  | 0, _, s => s
  | n + 1, i, s =>
    mapPages A pageTbl offset flags n (i + 4096) (vmmMapPage A s pageTbl i ((i + offset) % 2 ^ 64) flags)

/-- `vmm_map_range`: the loop from `ALIGN_DOWN(start)` by pages while below `ALIGN_UP(end)`. -/
def vmmMapRange (A : PageSource σ) (s : Machine σ) (pageTbl start endAddr offset flags : ℕ) : Machine σ :=
  mapPages A pageTbl offset flags ((alignUp endAddr 4096 - alignDown start 4096) / 4096)
    (alignDown start 4096) s

/-- `vmm_init`: `root_page_tbl` and the machine when it is loaded, or nothing if the assertion fails. -/
def vmmInit (A : PageSource σ) (mmap : List MmapEntry) (s : Machine σ) : Option (ℕ × Machine σ) :=
  let r := A.allocz s
  let rootPageTbl := physToHigherHalfData r.1
  let rw := MapPriv.kernelReadWrite.flags
  if rootPageTbl = 0 then none
  else
    let s := vmmMapRange A r.2 rootPageTbl 0 (4 * gib) 0 rw
    let s := vmmMapRange A s rootPageTbl 0 (4 * gib) higherHalfData rw
    let s := vmmMapRange A s rootPageTbl 0 heapMaxSize heapStartAddr rw
    let s := vmmMapRange A s rootPageTbl 0 (2 * gib) higherHalfCode MapPriv.kernelRead.flags
    some (rootPageTbl, mmap.foldl (fun s e => vmmMapRange A s rootPageTbl 0 e.length higherHalfData rw) s)

/-! ### The processor's walk -/

/-- The entry `i` of the table at `t`, if its present bit is set. -/
def presentAt (m : Mem) (t : ℕ) (i : Fin 512) : Option ℕ :=
  if load64 m (t + 8 * i) % 2 = 1 then some (load64 m (t + 8 * i)) else none

/-- The table an entry names: bits 51..12. -/
def tableOf (e : ℕ) : ℕ := e / 4096 % 2 ^ 40 * 4096

/-- The index of `v` at the level of bit `shift`. -/
def index (v shift : ℕ) : Fin 512 := ⟨v / 2 ^ shift % 512, Nat.mod_lt _ (by norm_num)⟩

/-- The path of `v` to its page table. -/
def path (v : ℕ) : List (Fin 512) := [index v 39, index v 30, index v 21]

/-- **The translation of `v`**: the leaf entry the walk from `root` ends in. -/
def walk (m : Mem) (root v : ℕ) : Option ℕ := lookup (presentAt m) tableOf root (path v) (index v 12)

/-- Bits 47..12 of an address. -/
def pageNumber (v : ℕ) : ℕ := v / 4096 % 2 ^ 36

/-! ### Indices and entries -/

theorem pmlIndex_eq (v shift : ℕ) : pmlIndex v shift = v / 2 ^ shift % 512 := by
  unfold pmlIndex
  refine Nat.eq_of_testBit_eq fun i => ?_
  rw [show (512 : ℕ) = 2 ^ 9 by norm_num, Nat.testBit_mod_two_pow, Nat.testBit_div_two_pow,
    Nat.testBit_shiftRight, Nat.testBit_and, Nat.testBit_shiftLeft,
    show (0x1ff : ℕ) = 2 ^ 9 - 1 by norm_num, Nat.testBit_two_pow_sub_one, Nat.add_comm shift i]
  simp [Bool.and_comm]

theorem pmlIndex_alignDown {v shift : ℕ} (hv : v < 2 ^ 64) (hs : 12 ≤ shift) :
    pmlIndex (alignDown v 4096) shift = (index v shift : ℕ) := by
  rw [pmlIndex_eq, alignDown_page hv]
  show _ = v / 2 ^ shift % 512
  obtain ⟨k, rfl⟩ := Nat.exists_eq_add_of_le hs
  rw [pow_add, ← Nat.div_div_eq_div_mul, ← Nat.div_div_eq_div_mul,
    show (2 : ℕ) ^ 12 = 4096 by norm_num, Nat.mul_div_cancel _ (by norm_num : 0 < 4096)]

theorem pageNumber_digits (v : ℕ) : pageNumber v = (index v 12 : ℕ) +
    512 * ((index v 21 : ℕ) + 512 * ((index v 30 : ℕ) + 512 * (index v 39 : ℕ))) := by
  show v / 4096 % 2 ^ 36 = v / 2 ^ 12 % 512 +
    512 * (v / 2 ^ 21 % 512 + 512 * (v / 2 ^ 30 % 512 + 512 * (v / 2 ^ 39 % 512)))
  omega

theorem pageNumber_eq_iff {v w : ℕ} :
    pageNumber v = pageNumber w ↔ path v = path w ∧ index v 12 = index w 12 := by
  have h : ∀ s, (index v s : ℕ) < 512 ∧ (index w s : ℕ) < 512 :=
    fun s => ⟨(index v s).isLt, (index w s).isLt⟩
  have h1 := h 12
  have h2 := h 21
  have h3 := h 30
  have h4 := h 39
  rw [pageNumber_digits, pageNumber_digits]
  simp only [path, List.cons.injEq, Fin.ext_iff, and_true]
  omega

theorem or_flags {c f : ℕ} (hc : c % 4096 = 0) (hf : f < 8) : c ||| f = c + f := by
  have h := Nat.two_pow_add_eq_or_of_lt (i := 12) (b := f) (by omega) (c / 4096)
  have hm : 2 ^ 12 * (c / 4096) = c := by omega
  rw [hm] at h
  exact h.symm

theorem and_not511 {e : ℕ} (he : e < 2 ^ 64) : e &&& (2 ^ 64 - 512) = e / 512 * 512 :=
  and_mask (k := 9) he (by norm_num)

theorem physOf_of_lt {p : ℕ} (h : p < 2 ^ 52) : physOf p = p :=
  if_neg (by unfold higherHalfData; omega)

theorem MapPriv.flags_lt (f : MapPriv) : f.flags < 8 := by cases f <;> decide

theorem MapPriv.flags_odd (f : MapPriv) : f.flags % 2 = 1 := by cases f <;> decide

end FusionCore.Mm.Virt
