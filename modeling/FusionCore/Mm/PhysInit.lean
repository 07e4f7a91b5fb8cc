import FusionCore.Mm.Phys
import FusionCore.Lib.Packing
import Mathlib.Order.CompletePartialOrder

/-! # What `pmm_init` sets up

For a memory map as the stivale2 protocol promises it (`WellFormed`) that leaves room for the bitmap and
its `int` indices (`Fits`), bit `i` is clear after `pmm_init` exactly for the pages `MarkedFree`: usable,
below the top, not page `0` and not a page of the bitmap (`bit_pmmInit`). The counter is
`initUsed`, the value of `KB_TO_PAGES` less the pages freed (`used_pmmInit`). -/

namespace FusionCore.Mm.PhysInit

open FusionCore.Lib.ByteMem FusionCore.Lib.Packing
open FusionCore.Mm.Defs FusionCore.Mm.Bmap FusionCore.Mm.Phys

/-- The bytes of a memory-map entry. -/
def range (e : MmapEntry) : Set ℕ := Set.Ico e.base (e.base + e.length)

/-- What the stivale2 protocol promises of the usable entries. -/
structure WellFormed (mmap : List MmapEntry) : Prop where
  aligned : ∀ e ∈ mmap, e.type = .usable → e.base % 4096 = 0 ∧ e.length % 4096 = 0
  disjoint : mmap.Pairwise fun e f =>
    e.type = .usable → f.type = .usable → Disjoint (range e) (range f)

/-- Every counted entry ends below `B`. -/
def EndsBelow (mmap : List MmapEntry) (B : ℕ) : Prop :=
  ∀ e ∈ mmap, e.type.counted = true → e.base + e.length < B

/-- The number of pages below `hi_page_top`. -/
def topPage (mmap : List MmapEntry) : ℕ := pageToBit (hiPageTop mmap)

/-- The bitmap has a bit for every page below the top, indexed by an `int`, and a usable entry to
lie in. -/
structure Fits (mmap : List MmapEntry) : Prop where
  below : EndsBelow mmap (2 ^ 43)
  covers : topPage mmap ≤ 8 * bitmapSize (hiPageTop mmap)
  home : ∃ e ∈ mmap, e.type = .usable ∧ bitmapSize (hiPageTop mmap) ≤ e.length

/-- The bitmap and the memory map as the second loop of `pmm_init` leaves them. -/
def placed (mmap : List MmapEntry) : ℕ × List MmapEntry :=
  placeBitmap (bitmapSize (hiPageTop mmap)) mmap

/-- `pmm_bitmap`. -/
def bitmapOf (mmap : List MmapEntry) : Bitmap := ⟨(placed mmap).1, bitmapSize (hiPageTop mmap)⟩

/-- The physical address of the bitmap. -/
def homeBase (mmap : List MmapEntry) : ℕ := physOf (placed mmap).1

/-- The bytes of the bitmap. -/
def bitmapBytes (mmap : List MmapEntry) : Set ℕ :=
  Set.Ico (homeBase mmap) (homeBase mmap + bitmapSize (hiPageTop mmap))

/-- **The pages `pmm_init` marks free.** -/
def MarkedFree (mmap : List MmapEntry) (i : ℕ) : Prop :=
  i ≠ 0 ∧ i < topPage mmap ∧ (∃ e ∈ mmap, e.type = .usable ∧ 4096 * i ∈ range e) ∧
    4096 * i ∉ bitmapBytes mmap

/-- The pages of the usable entries of `mmap`, counted entry by entry. -/
def usablePages (mmap : List MmapEntry) : ℕ :=
  ((mmap.filter (·.type = .usable)).map (·.length / 4096)).sum

/-- The counter after `pmm_init`. -/
def initUsed (mmap : List MmapEntry) : ℕ :=
  kbToPages (hiPageTop mmap) - usablePages (placed mmap).2

/-! ### The top -/

theorem foldl_top {mmap : List MmapEntry} {B : ℕ} (hB : B ≤ 2 ^ 64) : ∀ {hi : ℕ}, hi < B →
    EndsBelow mmap B →
    let top := mmap.foldl (fun hi e =>
      if e.type.counted then
        if (e.base + e.length) % 2 ^ 64 > hi then (e.base + e.length) % 2 ^ 64 else hi
      else hi) hi
    hi ≤ top ∧ top < B ∧ ∀ e ∈ mmap, e.type.counted = true → e.base + e.length ≤ top := by
  induction mmap with
  | nil => intro hi h _; exact ⟨le_rfl, h, by simp⟩
  | cons e mmap ih =>
    intro hi h he
    have htl : EndsBelow mmap B := fun f hf => he f (by simp [hf])
    simp only [List.foldl_cons]
    by_cases hc : e.type.counted = true
    · have hend := he e (by simp) hc
      have hmod : (e.base + e.length) % 2 ^ 64 = e.base + e.length := Nat.mod_eq_of_lt (by omega)
      rw [if_pos hc, hmod]
      split_ifs with hgt
      · obtain ⟨h1, h2, h3⟩ := ih hend htl
        refine ⟨by omega, h2, fun f hf hfc => ?_⟩
        rcases List.mem_cons.mp hf with rfl | hf
        · exact h1
        · exact h3 f hf hfc
      · obtain ⟨h1, h2, h3⟩ := ih h htl
        refine ⟨h1, h2, fun f hf hfc => ?_⟩
        rcases List.mem_cons.mp hf with rfl | hf
        · omega
        · exact h3 f hf hfc
    · rw [if_neg hc]
      obtain ⟨h1, h2, h3⟩ := ih h htl
      refine ⟨h1, h2, fun f hf hfc => ?_⟩
      rcases List.mem_cons.mp hf with rfl | hf
      · exact absurd hfc hc
      · exact h3 f hf hfc

section Top
variable {mmap : List MmapEntry} {B : ℕ} (he : EndsBelow mmap B) (hB : B ≤ 2 ^ 64) (h0 : 0 < B)
include he hB h0

theorem hiPageTop_lt : hiPageTop mmap < B := (foldl_top hB h0 he).2.1

theorem end_le_hiPageTop {e : MmapEntry} (hm : e ∈ mmap) (hu : e.type = .usable) :
    e.base + e.length ≤ hiPageTop mmap :=
  (foldl_top hB h0 he).2.2 e hm (by rw [hu]; rfl)

end Top

theorem bitmapSize_eq {hi : ℕ} (h : hi < 2 ^ 64) :
    bitmapSize hi = (hi / 4096 / 8 + 4095) / 4096 * 4096 := by
  rw [bitmapSize, alignDown_page (by omega), Nat.mul_div_cancel _ (by norm_num : 0 < 4096),
    alignUp_page (by omega)]

/-! ### The bitmap's place -/

theorem placeBitmap_cases (size : ℕ) : ∀ mmap : List MmapEntry,
    (∃ pre e post, mmap = pre ++ e :: post ∧ e.type = .usable ∧ size ≤ e.length ∧
      placeBitmap size mmap = (physToHigherHalfData e.base, pre ++
        { e with base := (e.base + size) % 2 ^ 64, length := e.length - size } :: post)) ∨
    ((∀ e ∈ mmap, ¬ (e.type = .usable ∧ size ≤ e.length)) ∧ placeBitmap size mmap = (0, mmap))
  | [] => Or.inr ⟨by simp, rfl⟩
  | e :: mmap => by
    rw [placeBitmap]
    split_ifs with h
    · exact Or.inl ⟨[], e, mmap, rfl, h.1, h.2, rfl⟩
    · rcases placeBitmap_cases size mmap with ⟨pre, f, post, h1, h2, h3, h4⟩ | ⟨h1, h2⟩
      · refine Or.inl ⟨e :: pre, f, post, by rw [h1]; rfl, h2, h3, ?_⟩
        rw [h4]; rfl
      · refine Or.inr ⟨fun f hf => ?_, by rw [h2]⟩
        rcases List.mem_cons.mp hf with rfl | hf
        · exact h
        · exact h1 f hf

/-- What is known of the entry that houses the bitmap. -/
structure Home (mmap : List MmapEntry) (pre : List MmapEntry) (e : MmapEntry)
    (post : List MmapEntry) : Prop where
  mmap_eq : mmap = pre ++ e :: post
  usable : e.type = .usable
  size_le : bitmapSize (hiPageTop mmap) ≤ e.length
  placed_eq : placed mmap = (e.base + higherHalfData, pre ++
    { e with base := e.base + bitmapSize (hiPageTop mmap),
             length := e.length - bitmapSize (hiPageTop mmap) } :: post)
  end_lt : e.base + e.length < 2 ^ 43

theorem exists_home {mmap : List MmapEntry} (hb : EndsBelow mmap (2 ^ 43))
    (hh : ∃ e ∈ mmap, e.type = .usable ∧ bitmapSize (hiPageTop mmap) ≤ e.length) :
    ∃ pre e post, Home mmap pre e post := by
  rcases placeBitmap_cases (bitmapSize (hiPageTop mmap)) mmap with
    ⟨pre, e, post, h1, h2, h3, h4⟩ | ⟨h1, -⟩
  · have hend : e.base + e.length < 2 ^ 43 :=
      hb e (by rw [h1]; simp) (by rw [h2]; rfl)
    refine ⟨pre, e, post, h1, h2, h3, ?_, hend⟩
    have hm1 : (e.base + bitmapSize (hiPageTop mmap)) % 2 ^ 64 =
        e.base + bitmapSize (hiPageTop mmap) := Nat.mod_eq_of_lt (by omega)
    have hm2 : physToHigherHalfData e.base = e.base + higherHalfData :=
      Nat.mod_eq_of_lt (by unfold higherHalfData; omega)
    rw [placed, h4, hm1, hm2]
  · obtain ⟨e, he, hu, hs⟩ := hh
    exact absurd ⟨hu, hs⟩ (h1 e he)

section Home
variable {mmap pre post : List MmapEntry} {e : MmapEntry} (hh : Home mmap pre e post)
include hh

theorem homeBase_eq : homeBase mmap = e.base := by
  rw [homeBase, hh.placed_eq, physOf, if_pos (by omega)]
  omega

theorem placed_bitmapOf : Placed (bitmapOf mmap) (homeBase mmap) where
  map_eq := by rw [homeBase_eq hh, bitmapOf, hh.placed_eq]
  inWindow := by
    have h1 := hh.size_le
    have h2 := hh.end_lt
    have h3 : (bitmapOf mmap).size = bitmapSize (hiPageTop mmap) := rfl
    rw [homeBase_eq hh, h3]
    omega

theorem usable_placed_iff (hw : WellFormed mmap) {a : ℕ} :
    (∃ f ∈ (placed mmap).2, f.type = .usable ∧ a ∈ range f) ↔
      (∃ f ∈ mmap, f.type = .usable ∧ a ∈ range f) ∧ a ∉ bitmapBytes mmap := by
  have hd := hw.disjoint
  rw [hh.mmap_eq, List.pairwise_append, List.pairwise_cons] at hd
  obtain ⟨-, ⟨hpost, -⟩, hpre⟩ := hd
  have hsz := hh.size_le
  set size := bitmapSize (hiPageTop mmap) with hsize
  -- no other usable entry meets the bytes of `e`
  have hother : ∀ f, f ∈ pre ∨ f ∈ post → f.type = .usable → a ∈ range f → a ∉ range e := by
    rintro f (hf | hf) hu ha hae
    · exact Set.disjoint_left.mp (hpre f hf e (by simp) hu hh.usable) ha hae
    · exact Set.disjoint_left.mp (hpost f hf hh.usable hu) hae ha
  have hbm : ∀ {x}, x ∈ bitmapBytes mmap ↔ e.base ≤ x ∧ x < e.base + size := by
    intro x; rw [bitmapBytes, homeBase_eq hh]; exact Iff.rfl
  have hre : ∀ {x}, x ∈ range e ↔ e.base ≤ x ∧ x < e.base + e.length := Iff.rfl
  have hmem : ∀ f, f ∈ mmap ↔ f ∈ pre ∨ f = e ∨ f ∈ post := by
    intro f; rw [hh.mmap_eq]; simp
  rw [hh.placed_eq, hbm]
  constructor
  · rintro ⟨f, hf, hu, ha⟩
    have hold : f ∈ pre ∨ f ∈ post → (∃ f ∈ mmap, f.type = .usable ∧ a ∈ range f) ∧
        ¬ (e.base ≤ a ∧ a < e.base + size) := by
      intro hf
      have hne := hother f hf hu ha
      rw [hre] at hne
      exact ⟨⟨f, (hmem f).mpr (by tauto), hu, ha⟩, fun h => hne ⟨h.1, by omega⟩⟩
    rcases List.mem_append.mp hf with hf | hf
    · exact hold (Or.inl hf)
    rcases List.mem_cons.mp hf with rfl | hf
    · have ha' : e.base + size ≤ a ∧ a < e.base + size + (e.length - size) := ha
      exact ⟨⟨e, (hmem e).mpr (by simp), hh.usable, ⟨by omega, by omega⟩⟩, by omega⟩
    · exact hold (Or.inr hf)
  · rintro ⟨⟨f, hf, hu, ha⟩, hn⟩
    rcases (hmem f).mp hf with hf | rfl | hf
    · exact ⟨f, by simp [hf], hu, ha⟩
    · have ha' : f.base ≤ a ∧ a < f.base + f.length := ha
      exact ⟨_, List.mem_append.mpr (Or.inr (List.mem_cons_self ..)), hh.usable,
        ⟨show f.base + size ≤ a by omega, show a < f.base + size + (f.length - size) by omega⟩⟩
    · exact ⟨f, by simp [hf], hu, ha⟩

end Home

/-! ### The pages freed -/

/-- The page numbers of an entry. -/
def pages (e : MmapEntry) : Finset ℕ := Finset.Ico (e.base / 4096) (e.base / 4096 + e.length / 4096)

theorem mem_pages {e : MmapEntry} (h1 : e.base % 4096 = 0) (h2 : e.length % 4096 = 0) {i : ℕ} :
    i ∈ pages e ↔ 4096 * i ∈ range e := by
  rw [pages, Finset.mem_Ico]
  show _ ↔ e.base ≤ 4096 * i ∧ 4096 * i < e.base + e.length
  omega

theorem placed_wellFormed {mmap : List MmapEntry} {B : ℕ} (hw : WellFormed mmap)
    (he : EndsBelow mmap B) (hB : B ≤ 2 ^ 63) (h0 : 0 < B) : WellFormed (placed mmap).2 ∧
      ∀ f ∈ (placed mmap).2, f.type = .usable → f.base + f.length ≤ hiPageTop mmap := by
  have htop : ∀ f ∈ mmap, f.type = .usable → f.base + f.length ≤ hiPageTop mmap :=
    fun f hf hu => end_le_hiPageTop he (by omega) h0 hf hu
  rcases placeBitmap_cases (bitmapSize (hiPageTop mmap)) mmap with
    ⟨pre, e, post, h1, h2, h3, h4⟩ | ⟨-, h2⟩
  swap
  · rw [placed, h2]; exact ⟨hw, htop⟩
  have hem : e ∈ mmap := by rw [h1]; simp
  have hlt := hiPageTop_lt he (by omega) h0
  have hend := htop e hem h2
  have hsz : bitmapSize (hiPageTop mmap) % 4096 = 0 := by
    rw [bitmapSize_eq (by omega)]; omega
  set size := bitmapSize (hiPageTop mmap)
  set e' : MmapEntry := { e with base := (e.base + size) % 2 ^ 64, length := e.length - size }
  have hb' : e'.base = e.base + size := Nat.mod_eq_of_lt (by omega)
  have hl' : e'.length = e.length - size := rfl
  have hsub : range e' ⊆ range e := by
    rintro a ⟨ha1, ha2⟩
    exact ⟨by omega, by omega⟩
  have hmem : ∀ f ∈ (placed mmap).2, f = e' ∨ f ∈ mmap := by
    intro f hf
    rw [placed, h4] at hf
    rw [h1]
    rcases List.mem_append.mp hf with hf | hf
    · exact Or.inr (by simp [hf])
    rcases List.mem_cons.mp hf with hf | hf
    · exact Or.inl hf
    · exact Or.inr (by simp [hf])
  refine ⟨⟨fun f hf hu => ?_, ?_⟩, fun f hf hu => ?_⟩
  · rcases hmem f hf with rfl | hf
    · have := hw.aligned e hem h2
      omega
    · exact hw.aligned f hf hu
  · have hd := hw.disjoint
    rw [h1, List.pairwise_append, List.pairwise_cons] at hd
    obtain ⟨d1, ⟨d2, d3⟩, d4⟩ := hd
    rw [placed, h4, List.pairwise_append, List.pairwise_cons]
    refine ⟨d1, ⟨fun f hf _ hu => (d2 f hf h2 hu).mono_left hsub, d3⟩, fun f hf g hg hu hu' => ?_⟩
    rcases List.mem_cons.mp hg with rfl | hg
    · exact (d4 f hf e (by simp) hu h2).mono_right hsub
    · exact d4 f hf g (by simp [hg]) hu hu'
  · rcases hmem f hf with rfl | hf
    · omega
    · exact htop f hf hu

theorem usablePages_le {l : List MmapEntry} {top : ℕ} (hw : WellFormed l)
    (ht : ∀ f ∈ l, f.type = .usable → f.base + f.length ≤ top) : usablePages l ≤ top / 4096 := by
  have hmem : ∀ {f}, f ∈ l.filter (·.type = .usable) → f ∈ l ∧ f.type = .usable := by
    intro f hf; simpa using List.mem_filter.mp hf
  have hcard : usablePages l = (((l.filter (·.type = .usable)).map pages).map Finset.card).sum := by
    rw [usablePages, List.map_map]
    congr 1
    refine List.map_congr_left fun f _ => ?_
    simp [pages]
  rw [hcard]
  refine sum_card_le ?_ ?_
  · rw [List.pairwise_map]
    refine List.Pairwise.imp_of_mem ?_ (hw.disjoint.filter _)
    intro f g hf hg hd
    obtain ⟨hf, hfu⟩ := hmem hf
    obtain ⟨hg, hgu⟩ := hmem hg
    have haf := hw.aligned f hf hfu
    have hag := hw.aligned g hg hgu
    refine Finset.disjoint_left.mpr fun i hi hi' => ?_
    exact Set.disjoint_left.mp (hd hfu hgu) ((mem_pages haf.1 haf.2).mp hi)
      ((mem_pages hag.1 hag.2).mp hi')
  · intro s hs i hi
    obtain ⟨f, hf, rfl⟩ := List.mem_map.mp hs
    obtain ⟨hf, hfu⟩ := hmem hf
    have haf := hw.aligned f hf hfu
    have h1 := ht f hf hfu
    have h2 : f.base ≤ 4096 * i ∧ 4096 * i < f.base + f.length := (mem_pages haf.1 haf.2).mp hi
    omega

@[simp] theorem usablePages_nil : usablePages [] = 0 := rfl

theorem usablePages_cons (e : MmapEntry) (l : List MmapEntry) :
    usablePages (e :: l) = (if e.type = .usable then e.length / 4096 else 0) + usablePages l := by
  unfold usablePages
  by_cases h : e.type = .usable <;> simp [h]

theorem used_freeUsable : ∀ {l : List MmapEntry} {s : Machine Pmm}, s.pmm.usedPageCnt < 2 ^ 64 →
    usablePages l ≤ s.pmm.usedPageCnt →
    (freeUsable l s).pmm.usedPageCnt = s.pmm.usedPageCnt - usablePages l
  | [], s, _, _ => by simp [freeUsable]
  | e :: l, s, h1, h2 => by
    rw [usablePages_cons] at h2 ⊢
    have hc : freeUsable (e :: l) s =
        freeUsable l (if e.type = .usable then pmmFree s e.base (e.length / 4096) else s) := rfl
    rw [hc]
    split_ifs with hu
    · rw [if_pos hu] at h2
      have hf : (pmmFree s e.base (e.length / 4096)).pmm.usedPageCnt =
          s.pmm.usedPageCnt - e.length / 4096 := by
        show (s.pmm.usedPageCnt + (2 ^ 64 - e.length / 4096)) % 2 ^ 64 = _
        omega
      rw [used_freeUsable (by omega) (by omega), hf]
      omega
    · rw [if_neg hu] at h2
      rw [used_freeUsable h1 (by omega)]
      omega

theorem freeUsable_statics : ∀ (l : List MmapEntry) (s : Machine Pmm),
    (freeUsable l s).pmm.bitmap = s.pmm.bitmap ∧ (freeUsable l s).pmm.hiPageTop = s.pmm.hiPageTop
  | [], _ => ⟨rfl, rfl⟩
  | e :: l, s => by
    have hc : freeUsable (e :: l) s =
        freeUsable l (if e.type = .usable then pmmFree s e.base (e.length / 4096) else s) := rfl
    rw [hc]
    obtain ⟨h1, h2⟩ := freeUsable_statics l
      (if e.type = .usable then pmmFree s e.base (e.length / 4096) else s)
    rw [h1, h2]
    split_ifs <;> exact ⟨rfl, rfl⟩

theorem bit_freeUsable {base N : ℕ} : ∀ {l : List MmapEntry} {s : Machine Pmm},
    Placed s.pmm.bitmap base → (∀ i < N, base + i / 8 < 2 ^ 47) → N ≤ 2 ^ 31 →
    (∀ e ∈ l, e.type = .usable → e.base / 4096 + e.length / 4096 ≤ N) →
    ∀ j < 8 * s.pmm.bitmap.size, j < 2 ^ 31 →
    (bit (freeUsable l s).mem s.pmm.bitmap j = false ↔
      bit s.mem s.pmm.bitmap j = false ∨ ∃ e ∈ l, e.type = .usable ∧ j ∈ pages e)
  | [], s, _, _, _, _, j, _, _ => by simp [freeUsable]
  | e :: l, s, hp, h1, h2, he, j, hj, hj' => by
    have hc : freeUsable (e :: l) s =
        freeUsable l (if e.type = .usable then pmmFree s e.base (e.length / 4096) else s) := rfl
    have htl : ∀ f ∈ l, f.type = .usable → f.base / 4096 + f.length / 4096 ≤ N :=
      fun f hf => he f (by simp [hf])
    rw [hc]
    by_cases hu : e.type = .usable
    · rw [if_pos hu]
      have hb : (pmmFree s e.base (e.length / 4096)).pmm.bitmap = s.pmm.bitmap := rfl
      have ih := bit_freeUsable (N := N) (l := l) (s := pmmFree s e.base (e.length / 4096))
        hp h1 h2 htl j hj hj'
      rw [hb] at ih
      have hN := he e (by simp) hu
      have hm : bit (pmmFree s e.base (e.length / 4096)).mem s.pmm.bitmap j =
          (bit s.mem s.pmm.bitmap j && !decide (pageToBit e.base ≤ j ∧
            j < pageToBit e.base + e.length / 4096)) :=
        bit_clearBits_of_lt hp (fun i hi => h1 i (by unfold pageToBit at hi; omega))
          (by unfold pageToBit; omega) hj hj'
      have hpg : j ∈ pages e ↔ pageToBit e.base ≤ j ∧ j < pageToBit e.base + e.length / 4096 := by
        rw [pages, Finset.mem_Ico]; rfl
      have hor : bit (pmmFree s e.base (e.length / 4096)).mem s.pmm.bitmap j = false ↔
          bit s.mem s.pmm.bitmap j = false ∨ j ∈ pages e := by
        rw [hm, hpg]
        by_cases hr : pageToBit e.base ≤ j ∧ j < pageToBit e.base + e.length / 4096 <;> simp [hr]
      rw [ih, hor, or_assoc]
      simp [hu]
    · rw [if_neg hu, bit_freeUsable hp h1 h2 htl j hj hj']
      simp [hu]

/-! ### The state after `pmm_init` -/

theorem kbToPages_eq {hi : ℕ} (h : hi < 2 ^ 54) : kbToPages hi = hi / 4 := by
  unfold kbToPages; omega

theorem usablePages_placed_le {mmap : List MmapEntry} (hw : WellFormed mmap)
    (he : EndsBelow mmap (2 ^ 54)) : usablePages (placed mmap).2 ≤ topPage mmap ∧
      topPage mmap * 1024 ≤ kbToPages (hiPageTop mmap) ∧ kbToPages (hiPageTop mmap) < 2 ^ 52 := by
  have hlt := hiPageTop_lt he (by norm_num) (by norm_num)
  obtain ⟨h1, h2⟩ := placed_wellFormed hw he (by norm_num) (by norm_num)
  have h3 := usablePages_le h1 h2
  rw [kbToPages_eq hlt]
  unfold topPage pageToBit
  omega

theorem used_pmmInit {mmap : List MmapEntry} (hw : WellFormed mmap) (he : EndsBelow mmap (2 ^ 54))
    (m : Mem) : (pmmInit mmap m).1.pmm.usedPageCnt = initUsed mmap := by
  obtain ⟨h1, h2, h3⟩ := usablePages_placed_le hw he
  exact used_freeUsable (s := ⟨_, ⟨_, _, kbToPages (hiPageTop mmap)⟩⟩)
    (show kbToPages (hiPageTop mmap) < 2 ^ 64 by omega)
    (show usablePages (placed mmap).2 ≤ kbToPages (hiPageTop mmap) by omega)

theorem pmmInit_bitmap (mmap : List MmapEntry) (m : Mem) :
    (pmmInit mmap m).1.pmm.bitmap = bitmapOf mmap := (freeUsable_statics _ _).1

theorem pmmInit_hiPageTop (mmap : List MmapEntry) (m : Mem) :
    (pmmInit mmap m).1.pmm.hiPageTop = hiPageTop mmap := (freeUsable_statics _ _).2

theorem bit_fill_ones {bm : Bitmap} {base i : ℕ} {m : Mem} (hp : Placed bm base)
    (hi : i < 8 * bm.size) (h31 : i < 2 ^ 31) : bit (fill m base bm.size 0xFF) bm i = true := by
  rw [bit_placed hp hi h31, fill_of_mem ⟨by omega, by omega⟩]
  have : i % 8 < 8 := Nat.mod_lt i (by norm_num)
  interval_cases i % 8 <;> rfl

theorem eight_bitmapSize_le {mmap : List MmapEntry} (hb : EndsBelow mmap (2 ^ 43)) :
    8 * bitmapSize (hiPageTop mmap) ≤ 2 ^ 31 := by
  have hlt := hiPageTop_lt hb (by norm_num) (by norm_num)
  rw [bitmapSize_eq (by omega)]
  omega

/-- **`pmm_init` clears exactly the bits of the pages it marks free.** -/
theorem bit_pmmInit {mmap : List MmapEntry} (hw : WellFormed mmap) (hb : EndsBelow mmap (2 ^ 43))
    (hhome : ∃ e ∈ mmap, e.type = .usable ∧ bitmapSize (hiPageTop mmap) ≤ e.length) (m : Mem) {i : ℕ}
    (hi : i < 8 * bitmapSize (hiPageTop mmap)) :
    bit (pmmInit mmap m).1.mem (bitmapOf mmap) i = false ↔ MarkedFree mmap i := by
  obtain ⟨pre, e, post, hh⟩ := exists_home hb hhome
  have hp := placed_bitmapOf hh
  have h31 := eight_bitmapSize_le hb
  have hsz : (bitmapOf mmap).size = bitmapSize (hiPageTop mmap) := rfl
  have htop : topPage mmap < 2 ^ 31 := by
    have := hiPageTop_lt hb (by norm_num) (by norm_num)
    unfold topPage pageToBit
    omega
  -- frees at the top may lie beyond the bitmap, but still in the direct map
  have hwin : ∀ j < topPage mmap, homeBase mmap + j / 8 < 2 ^ 47 := by
    intro j hj
    have := hh.end_lt
    rw [homeBase_eq hh]
    omega
  obtain ⟨hw', ht'⟩ := placed_wellFormed hw hb (by norm_num) (by norm_num)
  have hN : ∀ f ∈ (placed mmap).2, f.type = .usable →
      f.base / 4096 + f.length / 4096 ≤ topPage mmap := by
    intro f hfm hu
    have h1 := hw'.aligned f hfm hu
    have h2 := ht' f hfm hu
    unfold topPage pageToBit
    omega
  set s₀ : Machine Pmm := ⟨fill m (homeBase mmap) (bitmapOf mmap).size 0xFF,
    ⟨bitmapOf mmap, hiPageTop mmap, kbToPages (hiPageTop mmap)⟩⟩ with hs₀
  have hmem : (pmmInit mmap m).1.mem =
      bitmapSet (freeUsable (placed mmap).2 s₀).mem (bitmapOf mmap) (toInt 0) := by
    show bitmapSet _ (freeUsable (placed mmap).2 s₀).pmm.bitmap 0 = _
    rw [(freeUsable_statics _ _).1]
    rfl
  have hone : bit s₀.mem (bitmapOf mmap) i = true := bit_fill_ones hp hi (by omega)
  have hfree := bit_freeUsable (l := (placed mmap).2) (s := s₀) hp hwin htop.le hN i hi (by omega)
  have hpg : (∃ f ∈ (placed mmap).2, f.type = .usable ∧ i ∈ pages f) ↔
      (∃ f ∈ mmap, f.type = .usable ∧ 4096 * i ∈ range f) ∧ 4096 * i ∉ bitmapBytes mmap := by
    rw [← usable_placed_iff hh hw]
    constructor
    · rintro ⟨f, hfm, hu, hif⟩
      exact ⟨f, hfm, hu, (mem_pages (hw'.aligned f hfm hu).1 (hw'.aligned f hfm hu).2).mp hif⟩
    · rintro ⟨f, hfm, hu, hif⟩
      exact ⟨f, hfm, hu, (mem_pages (hw'.aligned f hfm hu).1 (hw'.aligned f hfm hu).2).mpr hif⟩
  rw [hmem, bit_bitmapSet hp (i := 0) (by omega) (by norm_num) hi (by omega), Bool.or_eq_false_iff,
    hfree, hone, hpg]
  constructor
  · rintro ⟨h1, h2⟩
    rcases h1 with h1 | ⟨⟨f, hfm, hu, hif⟩, h1⟩
    · exact absurd h1 (by simp)
    · have h3 := end_le_hiPageTop hb (by norm_num) (by norm_num) hfm hu
      have h4 := hw.aligned f hfm hu
      have h5 : f.base ≤ 4096 * i ∧ 4096 * i < f.base + f.length := hif
      exact ⟨fun h => by simp [h] at h2, by unfold topPage pageToBit; omega, ⟨f, hfm, hu, hif⟩, h1⟩
  · rintro ⟨h1, -, h2, h3⟩
    exact ⟨Or.inr ⟨h2, h3⟩, decide_eq_false (Ne.symm h1)⟩

end FusionCore.Mm.PhysInit
