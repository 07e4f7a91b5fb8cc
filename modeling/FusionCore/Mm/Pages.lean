import FusionCore.Mm.Phys

/-! # Where pages come from

The paging and slab code use the physical memory manager only through `pmm_allocz(1)` and
`pmm_free(p, 1)`. They are modelled over any such pair, a `PageSource`; `pmmSource` is the kernel's.
What they rely on is `Lawful`: the pages handed out are told apart, and a user may write in the pages
it was handed. -/

namespace FusionCore.Mm.Pages

open FusionCore.Lib.ByteMem FusionCore.Mm.Defs FusionCore.Mm.Phys

/-- `pmm_allocz(1)` and `pmm_free(ptr, 1)`. -/
structure PageSource (σ : Type) where
  allocz : Machine σ → ℕ × Machine σ
  free : Machine σ → ℕ → Machine σ

/-- The physical memory manager as a page source. -/
def pmmSource : PageSource Pmm where
  allocz s := pmmAllocz s 1
  free s ptr := pmmFree s ptr 1

variable {σ : Type}

/-- The memory of the pages of `H` is the same. -/
def SamePages (H : Set ℕ) (m m' : Mem) : Prop := ∀ p ∈ H, Set.EqOn m' m (page p)

/-- The memory outside the pages of `H` is the same. -/
def SameOutside (H : Set ℕ) (m m' : Mem) : Prop := ∀ a, (∀ p ∈ H, a ∉ page p) → m' a = m a

/-- **The contract of a page source.** `Good s H`: in the state `s` the pages `H` are handed out. They are
pages of `arena`, in which the source keeps nothing of its own. -/
structure Lawful (A : PageSource σ) (arena : Set ℕ) (Good : Machine σ → Set ℕ → Prop) : Prop where
  pages : ∀ {p}, p ∈ arena → p % 4096 = 0 ∧ p ≠ 0 ∧ p < 2 ^ 52
  handed : ∀ {s H}, Good s H → H ⊆ arena
  alloc : ∀ {s H}, Good s H → (A.allocz s).1 ≠ 0 → (A.allocz s).1 ∉ H ∧
    (∀ a ∈ page (A.allocz s).1, (A.allocz s).2.mem a = 0) ∧ SamePages H s.mem (A.allocz s).2.mem ∧
    Good (A.allocz s).2 (insert (A.allocz s).1 H)
  exhausted : ∀ {s H}, Good s H → (A.allocz s).1 = 0 →
    SamePages H s.mem (A.allocz s).2.mem ∧ Good (A.allocz s).2 H
  free : ∀ {s H p q}, Good s H → p ∈ H → q ∈ page p →
    SamePages arena s.mem (A.free s q).mem ∧ Good (A.free s q) (H \ {p})
  write : ∀ {s H m}, Good s H → SameOutside arena s.mem m → Good { s with mem := m } H

/-- The part of the contract that a user who only gives pages back relies on. -/
structure Releases (A : PageSource σ) (arena : Set ℕ) (Good : Machine σ → Set ℕ → Prop) : Prop where
  pages : ∀ {p}, p ∈ arena → p % 4096 = 0 ∧ p ≠ 0 ∧ p < 2 ^ 52
  handed : ∀ {s H}, Good s H → H ⊆ arena
  free : ∀ {s H p q}, Good s H → p ∈ H → q ∈ page p →
    SamePages arena s.mem (A.free s q).mem ∧ Good (A.free s q) (H \ {p})
  write : ∀ {s H m}, Good s H → SameOutside arena s.mem m → Good { s with mem := m } H

theorem Lawful.releases {A : PageSource σ} {arena : Set ℕ} {Good : Machine σ → Set ℕ → Prop}
    (h : Lawful A arena Good) : Releases A arena Good :=
  ⟨h.pages, h.handed, h.free, h.write⟩

theorem SamePages.trans {H H' : Set ℕ} {m m' m'' : Mem} (h : SamePages H m m') (hs : H ⊆ H')
    (h' : SamePages H' m' m'') : SamePages H m m'' :=
  fun p hp => (h' p (hs hp)).trans (h p hp)

theorem SamePages.mono {H H' : Set ℕ} {m m' : Mem} (hs : H ⊆ H') (h : SamePages H' m m') :
    SamePages H m m' := fun p hp => h p (hs hp)

/-- The memory of the pages of `H` is the same but for the bytes `X`. -/
def SameBut (H X : Set ℕ) (m m' : Mem) : Prop := ∀ p ∈ H, ∀ a ∈ page p, a ∉ X → m' a = m a

section SameBut
variable {H X Y : Set ℕ} {m m' m'' : Mem}

theorem SameBut.trans (h : SameBut H X m m') (h' : SameBut H X m' m'') : SameBut H X m m'' :=
  fun p hp a ha hX => (h' p hp a ha hX).trans (h p hp a ha hX)

theorem SameBut.mono (hs : X ⊆ Y) (h : SameBut H X m m') : SameBut H Y m m' :=
  fun p hp a ha hY => h p hp a ha fun hX => hY (hs hX)

theorem sameBut_of_differsOn (h : DiffersOn X m m') : SameBut H X m m' := fun _ _ a _ ha => h a ha

theorem sameBut_of_samePages (h : SamePages H m m') : SameBut H X m m' := fun p hp _ ha _ => h p hp ha

theorem SameBut.load64 {p a : ℕ} (h : SameBut H X m m') (hp : p ∈ H) (ha : p ≤ a ∧ a + 8 ≤ p + 4096)
    (hd : ∀ b ∈ X, b < a ∨ a + 8 ≤ b) : load64 m' a = load64 m a :=
  load64_congr fun b hb => h p hp b (mem_page.mpr (by have := hb.1; have := hb.2; omega)) fun hX => by
    have h1 := hd b hX
    have h2 := hb.1
    have h3 := hb.2
    omega

end SameBut

end FusionCore.Mm.Pages
