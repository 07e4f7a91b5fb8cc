import FusionCore.Mm.VirtFail

/-! # What `vmm_unmap_page` takes

`vmm_unmap_page` goes down as a map does, with the flags 0: where a table is missing it takes a page,
enters it without the present flag and goes on in it. The page is in no table of the tree
(`UnmapAt`), so the unmap itself is right (`unmap_page`), with memory or without.

* `unmap_same_iff`: it leaves the memory manager as it is exactly if the page table is there or no page is
  free.
* `unmaps_take_nothing`: while every unmap meets this condition, every page taken is a table of the
  tree. -/

namespace FusionCore.Mm.VirtUnmap

open FusionCore.Lib.ByteMem FusionCore.Lib.Radix FusionCore.Lib.Runs
open FusionCore.Mm.Defs FusionCore.Mm.Phys FusionCore.Mm.PhysInit FusionCore.Mm.Pages
  FusionCore.Mm.PhysPages
open FusionCore.Mm.Virt FusionCore.Mm.VirtTree FusionCore.Mm.VirtSpec FusionCore.Mm.VirtFail
open FusionCore.Mm.PhysSpec (freeSet free_iff_uncovered smallMap smallMap_wellFormed smallMap_fits)

/-! ### An unmap, with or without memory -/

/-- Where an unmap stands after some levels: as with memory, or in page 0 because there is none. -/
def UnmapAt (root : ℕ) (T : List ℕ) (p : List (Fin 512)) (r : ℕ × Machine Pmm) : Prop :=
  StandsAt r.2.mem root T p r.1 ∨
    (follow (presentAt r.2.mem) tableOf root p = none ∧ r.1 = 0 ∧ AtNull 0 r.2)

/-- What happens to the machine on the way down: the tree stays as it is, pages are taken and never given
back, and without a free page the memory manager stays as it is. `T'` are the pages used as tables
then. -/
structure OnWay (mmap : List MmapEntry) (base : List (ℕ × ℕ)) (root : ℕ) (s : Machine Pmm) (T' : List ℕ)
    (s' : Machine Pmm) : Prop where
  tree : TreeInv s'.mem root T'
  handed : Over mmap base s' {t | t ∈ T'}
  same : SameTree (presentAt s.mem) (presentAt s'.mem) tableOf 3 root
  used : s.pmm.usedPageCnt ≤ s'.pmm.usedPageCnt
  full : freeSet s = ∅ → SamePmm mmap s s'

section Unmap
variable {mmap : List MmapEntry} {base : List (ℕ × ℕ)} {s s' s'' : Machine Pmm} {root tbl v : ℕ}
  {T T' T'' : List ℕ} {p q : List (Fin 512)} {i : Fin 512} {r : ℕ × Machine Pmm}

theorem follow_broken {m : Mem} (h : follow (presentAt m) tableOf root p = none) :
    follow (presentAt m) tableOf root (p ++ q) = none := by
  rw [follow_append, h]
  rfl

theorem OnWay.refl (hI : TreeInv s.mem root T) (hG : Over mmap base s {t | t ∈ T}) :
    OnWay mmap base root s T s :=
  ⟨hI, hG, fun _ _ _ _ _ => rfl, le_rfl, fun _ => ⟨rfl, fun _ _ => rfl⟩⟩

variable (hw : WellFormed mmap) (hf : Fits mmap)
include hf

theorem OnWay.trans (hG : Over mmap base s {t | t ∈ T}) (h : OnWay mmap base root s T' s')
    (h' : OnWay mmap base root s' T'' s'') : OnWay mmap base root s T'' s'' :=
  ⟨h'.tree, h'.handed, h.same.trans h'.same, h.used.trans h'.used, fun hfull =>
    (h.full hfull).trans (h'.full (((h.full hfull).free hf hG).trans hfull))⟩

theorem OnWay.of_samePmm (hI : TreeInv s.mem root T) (hG : Over mmap base s {t | t ∈ T})
    (hs : SameTree (presentAt s.mem) (presentAt s'.mem) tableOf 3 root) (h : SamePmm mmap s s') :
    OnWay mmap base root s T s' :=
  ⟨hI.same hs, h.over hf hG, hs, (congrArg Pmm.usedPageCnt h.1).ge, fun _ => h⟩

include hw

theorem level_takes (hG : Over mmap base r.2 {t | t ∈ T})
    (habs : load64 r.2.mem (physOf r.1 + 8 * i) &&& 1 = 0) (h0 : (pmmSource.allocz r.2).1 ≠ 0) :
    (vmmGetOrCreatePml pmmSource r.2 r.1 i 0).2.pmm.usedPageCnt = r.2.pmm.usedPageCnt + 1 := by
  rw [← hG.used hw hf h0]
  unfold vmmGetOrCreatePml
  simp only [if_pos habs]

variable (hb : homeBase mmap ≠ 0)
include hb

theorem unmap_level (hI : TreeInv r.2.mem root T) (hG : Over mmap base r.2 {t | t ∈ T})
    (hp : p.length < 3) (hat : UnmapAt root T p r) :
    ∃ T', OnWay mmap base root r.2 T' (vmmGetOrCreatePml pmmSource r.2 r.1 i 0).2 ∧
      UnmapAt root T' (p ++ [i]) (vmmGetOrCreatePml pmmSource r.2 r.1 i 0) := by
  have hL := pmmSource_over hw hf hb base
  have hlen : (p ++ [i]).length ≤ 3 := by simp; omega
  rcases hat with hat | ⟨hnone, hnull, hat⟩
  · have hmem := hat.mem hI hp.le
    by_cases hserved : Served pmmSource r.2 r.1 i
    · obtain ⟨T', hc, hG'⟩ := creates_of_lawful (f := 0) hL hG hmem hserved
      obtain ⟨hI', hat', hsame⟩ := getOrCreate_unmap hI hp hat hc
      obtain ⟨hused, hfull⟩ : r.2.pmm.usedPageCnt ≤
          (vmmGetOrCreatePml pmmSource r.2 r.1 i 0).2.pmm.usedPageCnt ∧
          (freeSet r.2 = ∅ → SamePmm mmap r.2 (vmmGetOrCreatePml pmmSource r.2 r.1 i 0).2) := by
        by_cases habs : load64 r.2.mem (physOf r.1 + 8 * i) &&& 1 = 0
        · have htake := level_takes hw hf hG habs (hserved habs)
          exact ⟨by omega, fun hfull => absurd ((hG.fails_iff hw hf).mpr hfull) (hserved habs)⟩
        · unfold vmmGetOrCreatePml
          simp only [if_neg habs]
          exact ⟨le_rfl, fun _ => ⟨rfl, fun _ _ => rfl⟩⟩
      exact ⟨T', ⟨hI', hG', hsame, hused, hfull⟩, Or.inl hat'⟩
    · unfold Served at hserved
      push Not at hserved
      obtain ⟨habs, h0⟩ := hserved
      obtain ⟨h1, h2, h3, h4⟩ := level_to_null (f := 0) hw hf hb hI hG ((hG.fails_iff hw hf).mp h0)
        (by norm_num) habs hmem
      have hent : presentAt r.2.mem (physOf r.1) i = none := if_neg (and_one_eq_zero.mp habs)
      -- the entry was absent and is
      have hsame : SameTree (presentAt r.2.mem)
          (presentAt (vmmGetOrCreatePml pmmSource r.2 r.1 i 0).2.mem) tableOf 3 root := by
        intro q t j hq hqt
        have ht := hI.reached q t hq hqt
        rw [presentAt_congr (h3 t ht), presentAt_store (hI.aligned _ hmem) (hI.aligned t ht)
          (by norm_num)]
        split_ifs with hc h01
        · exact absurd h01 (by norm_num)
        · rw [hc.1, hc.2, hent]
        · rfl
      refine ⟨T, .of_samePmm hf hI hG hsame h4, Or.inr ⟨?_, h1, h2⟩⟩
      rw [hsame.follow_eq hlen]
      rcases hat with hfol | ⟨hnone, -⟩
      · rw [follow_snoc hfol, hent]
        rfl
      · exact follow_broken hnone
  · obtain ⟨pml, s⟩ := r
    obtain rfl : pml = 0 := hnull
    obtain ⟨h1, h2, h3, h4⟩ := hat.level hw hf hb hG (by norm_num) i
    have hsame := hI.sameTree (samePages_of_null
      (fun hc => (hL.pages (hL.handed hG hc)).2.1 rfl) hI.aligned h3)
    exact ⟨T, .of_samePmm hf hI hG hsame h4,
      Or.inr ⟨(hsame.follow_eq hlen).trans (follow_broken hnone), h1, h2⟩⟩

theorem descend_unmap (q : List (Fin 512)) : ∀ (p : List (Fin 512)) (r : ℕ × Machine Pmm) (T : List ℕ),
    p.length + q.length ≤ 3 → TreeInv r.2.mem root T → Over mmap base r.2 {t | t ∈ T} →
    UnmapAt root T p r →
      ∃ T', OnWay mmap base root r.2 T' (descend pmmSource 0 q r).2 ∧
        UnmapAt root T' (p ++ q) (descend pmmSource 0 q r) := by
  induction q with
  | nil => exact fun p r T _ hI hG hat => ⟨T, .refl hI hG, by rwa [List.append_nil]⟩
  | cons i q ih =>
    intro p r T hlen hI hG hat
    rw [List.length_cons] at hlen
    obtain ⟨T₁, h₁, hat₁⟩ := unmap_level hw hf hb (i := i) hI hG (by omega) hat
    obtain ⟨T₂, h₂, hat₂⟩ := ih (p ++ [i]) _ T₁ (by simp; omega) h₁.tree h₁.handed hat₁
    rw [append_level] at hat₂
    exact ⟨T₂, h₁.trans hf hG h₂, hat₂⟩

theorem leaf_pmm (hI : TreeInv r.2.mem root T) (hG : Over mmap base r.2 {t | t ∈ T}) (hp : p.length ≤ 3)
    (hat : UnmapAt root T p r) (i : Fin 512) (value : ℕ) :
    SamePmm mmap r.2 { r.2 with mem := store64 r.2.mem (physOf r.1 + 8 * i) value } := by
  have hL := pmmSource_over hw hf hb base
  refine ⟨rfl, fun a ha => store_entry_of_not_mem fun hpage => ?_⟩
  rcases hat with hat | ⟨-, hnull, -⟩
  · exact not_mem_bitmap_of_arena hw hf (hL.handed hG (hat.mem hI hp)) hpage ha
  · rw [hnull, physOf_of_lt (by norm_num)] at hpage
    exact not_mem_bitmap_of_zero hw hf hb hpage ha

/-- **`vmm_unmap_page`** removes one translation and keeps the tree, whether it gets pages or not. -/
theorem unmap_page (hI : TreeInv s.mem (physOf tbl) T) (hG : Over mmap base s {t | t ∈ T})
    (hv : v < 2 ^ 64) : ∃ T', TreeInv (vmmUnmapPage pmmSource s tbl v).mem (physOf tbl) T' ∧
      Over mmap base (vmmUnmapPage pmmSource s tbl v) {t | t ∈ T'} ∧
      (∀ q, q.length ≤ 3 →
        follow (presentAt (vmmUnmapPage pmmSource s tbl v).mem) tableOf (physOf tbl) q =
        follow (presentAt s.mem) tableOf (physOf tbl) q) ∧
      ∀ w, walk (vmmUnmapPage pmmSource s tbl v).mem (physOf tbl) w =
        if pageNumber w = pageNumber v then none else walk s.mem (physOf tbl) w := by
  have hL := pmmSource_over hw hf hb base
  have hlen : ∀ w, (path w).length = 3 := fun _ => rfl
  obtain ⟨T', ⟨hI', hG', hsame, -, -⟩, hat⟩ :=
    descend_unmap hw hf hb (path v) [] (tbl, s) T (by simp [path])
    hI hG (Or.inl (Or.inl rfl))
  rw [List.nil_append] at hat
  unfold vmmUnmapPage
  rw [setPtValue_eq hv]
  generalize descend pmmSource 0 (path v) (tbl, s) = r at hI' hG' hat hsame ⊢
  have hsame : SameTree (presentAt s.mem) (presentAt r.2.mem) tableOf 3 (physOf tbl) := hsame
  have hold : ∀ w, walk r.2.mem (physOf tbl) w = walk s.mem (physOf tbl) w :=
    fun w => hsame.lookup_eq (hlen w).le
  have hover := (leaf_pmm hw hf hb hI' hG' (hlen v).le hat (index v 12) 0).over hf hG'
  rcases hat with hat | ⟨hnone, hnull, -⟩
  · obtain ⟨h1, h2, h3⟩ := unmap_leaf (v := v) hI' hat
    exact ⟨T', h1, hover, fun q hq => (h2 q hq).trans (hsame.follow_eq hq), fun w => by rw [h3 w, hold w]⟩
  · -- the store goes to page 0
    have hout : SameOutside {0} r.2.mem (store64 r.2.mem (physOf r.1 + 8 * (index v 12 : ℕ)) 0) := by
      intro a ha
      rw [hnull, physOf_of_lt (by norm_num)]
      exact store_entry_of_not_mem (ha 0 rfl)
    have hsame' := hI'.sameTree (samePages_of_null
      (fun hc => (hL.pages (hL.handed hG' hc)).2.1 rfl) hI'.aligned hout)
    refine ⟨T', hI'.same hsame', hover, fun q hq => (hsame'.follow_eq hq).trans (hsame.follow_eq hq),
      fun w => ((hsame'.lookup_eq (hlen w).le).trans ?_).trans (if_congr Iff.rfl rfl (hold w))⟩
    split_ifs with hpn
    · rw [(pageNumber_eq_iff.mp hpn).1, lookup, hnone]
      rfl
    · rfl

/-! ### What it takes -/

/-- **A missing table costs a page.** -/
theorem descend_takes (q : List (Fin 512)) : ∀ (p : List (Fin 512)) (r : ℕ × Machine Pmm),
    p.length + q.length ≤ 3 → TreeInv r.2.mem (physOf tbl) T → Over mmap base r.2 {t | t ∈ T} →
      follow (presentAt r.2.mem) tableOf (physOf tbl) p = some (physOf r.1) →
      follow (presentAt r.2.mem) tableOf (physOf tbl) (p ++ q) = none → freeSet r.2 ≠ ∅ →
      r.2.pmm.usedPageCnt < (descend pmmSource 0 q r).2.pmm.usedPageCnt := by
  induction q with
  | nil =>
    intro p r _ _ _ hp hnone
    rw [List.append_nil, hp] at hnone
    exact absurd hnone (Option.some_ne_none _)
  | cons i q ih =>
    intro p r hlen hI hG hp hnone hfree
    rw [List.length_cons] at hlen
    cases he : presentAt r.2.mem (physOf r.1) i with
    | some e =>
      have hfol : follow (presentAt r.2.mem) tableOf (physOf tbl) (p ++ [i]) = some (tableOf e) := by
        rw [follow_snoc hp, he]
        rfl
      obtain ⟨-, heq, hphys, -⟩ := level_present (A := pmmSource) (f := 0) hI (by omega) hp hfol
      rw [descend, heq]
      rw [← append_level] at hnone
      exact ih (p ++ [i]) (tableOf e, r.2) (by simp; omega) hI hG (by rw [hfol, hphys]) hnone hfree
    | none =>
      have habs : load64 r.2.mem (physOf r.1 + 8 * i) &&& 1 = 0 := by
        rw [and_one_eq_zero]
        intro hodd
        simp [presentAt, hodd] at he
      have h0 : (pmmSource.allocz r.2).1 ≠ 0 := fun h => hfree ((hG.fails_iff hw hf).mp h)
      have htake := level_takes hw hf hG habs h0
      obtain ⟨T₁, h₁, hat₁⟩ := unmap_level hw hf hb (i := i) hI hG (by omega) (Or.inl (Or.inl hp))
      obtain ⟨T₂, h₂, -⟩ := descend_unmap hw hf hb q (p ++ [i]) _ T₁ (by simp; omega) h₁.tree
        h₁.handed hat₁
      have hrest := h₂.used
      rw [descend]
      omega

omit hw hf hb in
/-- The page table of `v` is there, or no page is free. -/
def NoNeed (tbl : ℕ) (s : Machine Pmm) (v : ℕ) : Prop :=
  (∃ t, follow (presentAt s.mem) tableOf (physOf tbl) (path v) = some t) ∨ freeSet s = ∅

/-- **An unmap leaves the memory manager as it is** exactly if the page table is there or no page is
free. -/
theorem unmap_same_iff (hI : TreeInv s.mem (physOf tbl) T) (hG : Over mmap base s {t | t ∈ T})
    (hv : v < 2 ^ 64) : SamePmm mmap s (vmmUnmapPage pmmSource s tbl v) ↔ NoNeed tbl s v := by
  have hlen : (path v).length = 3 := rfl
  obtain ⟨T', hway, hat⟩ := descend_unmap hw hf hb (path v) [] (tbl, s) T (by simp [path]) hI hG
    (Or.inl (Or.inl rfl))
  have hleaf := leaf_pmm hw hf hb hway.tree hway.handed hlen.le hat (index v 12) 0
  unfold vmmUnmapPage
  rw [setPtValue_eq hv]
  constructor
  · intro hsame
    by_contra hneed
    unfold NoNeed at hneed
    push Not at hneed
    obtain ⟨hnone, hfree⟩ := hneed
    have hnone : follow (presentAt s.mem) tableOf (physOf tbl) (path v) = none :=
      Option.eq_none_iff_forall_ne_some.mpr hnone
    have hlt := descend_takes hw hf hb (path v) [] (tbl, s) (by simp [path]) hI hG rfl hnone
      (Set.nonempty_iff_ne_empty.mp hfree)
    have heq := congrArg Pmm.usedPageCnt hsame.1
    dsimp only at heq hlt
    omega
  · intro hneed
    have hdown : SamePmm mmap s (descend pmmSource 0 (path v) (tbl, s)).2 := by
      rcases hneed with ⟨t, ht⟩ | hfull
      · rw [(descend_present (A := pmmSource) (f := 0) (p := []) (q := path v) hI
          (by simp [path]) rfl ht).2.1]
        exact ⟨rfl, fun _ _ => rfl⟩
      · exact hway.full hfull
    exact hdown.trans hleaf

end Unmap

/-! ### Maps -/

/-- Every page used as a table is a table of the tree. -/
def AllReached (m : Mem) (root : ℕ) (T : List ℕ) : Prop :=
  ∀ t ∈ T, ∃ q, q.length ≤ 3 ∧ follow (presentAt m) tableOf root q = some t

section Maps
variable {σ : Type} {A : PageSource σ} {s : Machine σ} {root tbl f : ℕ} {T T' : List ℕ}
  {p : List (Fin 512)}
  {i : Fin 512} {r : ℕ × Machine σ}

theorem level_reached (hI : TreeInv r.2.mem root T) (hf : f < 8) (hodd : f % 2 = 1) (hp : p.length < 3)
    (hfol : follow (presentAt r.2.mem) tableOf root p = some (physOf r.1))
    (hc : Creates A T r.2 r.1 i T') (hall : AllReached r.2.mem root T) :
    AllReached (vmmGetOrCreatePml A r.2 r.1 i f).2.mem root T' := by
  cases he : presentAt r.2.mem (physOf r.1) i with
  | some e =>
    obtain ⟨hr, rfl⟩ := getOrCreate_present (f := f) hI hp hfol rfl he hc
    rw [hr]
    exact hall
  | none =>
    obtain ⟨hadd, -, -⟩ := getOrCreate_create hI hf hodd hp hfol rfl he hc
    obtain ⟨hfresh, htab, -⟩ := getOrCreate_absent hf rfl he hc
    rw [htab]
    intro t ht
    rcases List.mem_cons.mp ht with rfl | ht
    · refine ⟨p ++ [i], by simp; omega, (hadd.follow_new hI.tree).trans ?_⟩
      have h1 := hfresh.aligned
      have h2 := hfresh.lt
      rw [show tableOf ((A.allocz r.2).1 + f) = (A.allocz r.2).1 by unfold tableOf; omega]
    · obtain ⟨q, hq, hqt⟩ := hall t ht
      refine ⟨q, hq, ?_⟩
      rw [hadd.follow_eq hI.tree hq, if_neg, hqt]
      rintro rfl
      rw [follow_snoc hfol, he] at hqt
      exact absurd hqt (by simp)

theorem descend_reached {q : List (Fin 512)} (hf : f < 8) (hodd : f % 2 = 1)
    (h : FreshAlong A f q T r T') (hlen : p.length + q.length ≤ 3) (hI : TreeInv r.2.mem root T)
    (hfol : follow (presentAt r.2.mem) tableOf root p = some (physOf r.1))
      (hall : AllReached r.2.mem root T) :
    AllReached (descend A f q r).2.mem root T' := by
  induction q generalizing p T r with
  | nil =>
    obtain rfl : T' = T := h
    exact hall
  | cons i q ih =>
    obtain ⟨T₁, hc, h⟩ := h
    obtain ⟨hp, hlen⟩ := length_level hlen
    obtain ⟨hI₁, hfol₁, -, -⟩ := getOrCreate_map hI hf hodd hp hfol hc
    exact ih h hlen hI₁ hfol₁ (level_reached hI hf hodd hp hfol hc hall)

variable {arena : Set ℕ} {Good : Machine σ → Set ℕ → Prop} (hL : Lawful A arena Good)
include hL

/-- **A map that is served** leaves every page it takes in the tree. -/
theorem setPtValue_reached {v value : ℕ} (hf : f < 8) (hodd : f % 2 = 1) (hv : v < 2 ^ 64)
    (hval : value < 2 ^ 64) (hI : TreeInv s.mem (physOf tbl) T) (hG : Good s {t | t ∈ T})
    (hs : AllServed A s tbl (alignDown v 4096) f) (hall : AllReached s.mem (physOf tbl) T) :
    ∃ T', TreeInv (vmmSetPtValue A s tbl (alignDown v 4096) f value).mem (physOf tbl) T' ∧
      Good (vmmSetPtValue A s tbl (alignDown v 4096) f value) {t | t ∈ T'} ∧
      AllReached (vmmSetPtValue A s tbl (alignDown v 4096) f value).mem (physOf tbl) T' := by
  have hlen : (path v).length = 3 := rfl
  have hpath : ([] : List (Fin 512)).length + (path v).length ≤ 3 := by simp [path]
  obtain ⟨T', hfresh, hG'⟩ :=
    fresh_of_served hL hpath hI hG (Or.inl ⟨hf, hodd, rfl⟩) ((allServed_iff hv).mp hs)
  obtain ⟨hI', hfol, -, -⟩ := hfresh.map hf hodd hpath hI rfl
  have hall' := descend_reached hf hodd hfresh hpath hI rfl hall
  rw [List.nil_append] at hfol
  rw [setPtValue_eq hv]
  generalize descend A f (path v) (tbl, s) = r at hI' hG' hfol hall' ⊢
  obtain ⟨hI'', hf'', -, -⟩ := set_leaf hI' hfol hval
  refine ⟨T', hI'', hL.write hG' fun a ha => ?_, fun t ht => ?_⟩
  · exact store_entry_of_not_mem (ha _ (hL.handed hG' (hI'.reached _ _ hlen.le hfol)))
  · obtain ⟨q, hq, hqt⟩ := hall' t ht
    exact ⟨q, hq, (hf'' q hq).trans hqt⟩

end Maps

/-! ### Runs -/

section Runs
variable {mmap : List MmapEntry} {base : List (ℕ × ℕ)} {s s₀ : Machine Pmm} {tbl : ℕ} {ops : List VmmOp}

/-- A map gets its pages. -/
def Gets (tbl : ℕ) (s : Machine Pmm) : VmmOp → Prop
  | .map _ virt priv => AllServed pmmSource s tbl (alignDown virt 4096) priv.flags
  | .unmap _ => True

/-- A map gets its pages, and an unmap needs none. -/
def Frugal (tbl : ℕ) (s : Machine Pmm) : VmmOp → Prop
  | .map _ virt priv => AllServed pmmSource s tbl (alignDown virt 4096) priv.flags
  | .unmap virt => NoNeed tbl s virt

/-- A call that meets `C`. -/
def Call (C : Machine Pmm → VmmOp → Prop) (tbl : ℕ) (s : Machine Pmm) (o : VmmOp)
    (s' : Machine Pmm) : Prop :=
  o.Valid ∧ C s o ∧ s' = exec pmmSource tbl s o

variable (hw : WellFormed mmap) (hf : Fits mmap) (hb : homeBase mmap ≠ 0)
include hw hf hb

theorem tree_of_calls (hz : ∀ a ∈ page (physOf tbl), s₀.mem a = 0)
    (hG : Over mmap base s₀ {t | t ∈ [physOf tbl]}) (hr : Run (Call (Gets tbl) tbl) s₀ ops s) :
    ∃ T, TreeInv s.mem (physOf tbl) T ∧ Over mmap base s {t | t ∈ T} := by
  have hL := pmmSource_over hw hf hb base
  have hroot : physOf tbl ∈ arenaOf mmap := hL.handed hG (by simp)
  refine hr.invariant (I := fun s => ∃ T, TreeInv s.mem (physOf tbl) T ∧ Over mmap base s {t | t ∈ T})
    ⟨_, treeInv_zeroed hroot.1 hz, hG⟩ ?_
  rintro s₁ o s₂ ⟨T, hI, hG₁⟩ ⟨hv, hget, rfl⟩
  cases o with
  | map phys virt priv =>
    obtain ⟨s', ⟨-, hm, hc⟩, hG'⟩ := step_of_lawful (s := ⟨s₁, T⟩) hL hI hG₁ hv hget
    obtain ⟨hval, hval1, -⟩ := leaf_value priv hv.1 hv.2.1
    obtain ⟨hI', -⟩ := setPtValue_map (s := ⟨s₁, T⟩) hI hv.2.2 priv.flags_lt priv.flags_odd hval hval1 hc
    rw [hm] at hG'
    exact ⟨s'.tables, hI', hG'⟩
  | unmap virt =>
    obtain ⟨T', hI', hG', -⟩ := unmap_page hw hf hb hI hG₁ hv
    exact ⟨T', hI', hG'⟩

theorem reached_of_calls (hz : ∀ a ∈ page (physOf tbl), s₀.mem a = 0)
    (hG : Over mmap base s₀ {t | t ∈ [physOf tbl]}) (hr : Run (Call (Frugal tbl) tbl) s₀ ops s) :
    ∃ T, TreeInv s.mem (physOf tbl) T ∧ Over mmap base s {t | t ∈ T} ∧
    AllReached s.mem (physOf tbl) T := by
  have hL := pmmSource_over hw hf hb base
  have hroot : physOf tbl ∈ arenaOf mmap := hL.handed hG (by simp)
  refine hr.invariant (I := fun s => ∃ T, TreeInv s.mem (physOf tbl) T ∧ Over mmap base s {t | t ∈ T} ∧
    AllReached s.mem (physOf tbl) T)
    ⟨_, treeInv_zeroed hroot.1 hz, hG, fun t ht => ⟨[], by simp, ?_⟩⟩ ?_
  · rw [List.mem_singleton.mp ht]
    rfl
  rintro s₁ o s₂ ⟨T, hI, hG₁, hall⟩ ⟨hv, hneed, rfl⟩
  cases o with
  | map phys virt priv =>
    obtain ⟨hval, -, -⟩ := leaf_value priv hv.1 hv.2.1
    exact setPtValue_reached hL priv.flags_lt priv.flags_odd hv.2.2 hval hI hG₁ hneed hall
  | unmap virt =>
    -- the memory manager is as it was, so no other page is used
    obtain ⟨T', hI', hG', hfol, -⟩ := unmap_page hw hf hb hI hG₁ hv
    have hsame := (unmap_same_iff hw hf hb hI hG₁ hv).mpr hneed
    refine ⟨T, ⟨?_, ?_, hI.aligned, hI.lt, ?_⟩, hsame.over hf hG₁, fun t ht => ?_⟩
    · exact hI'.tree
    · intro p t hp hpt
      exact hI.reached p t hp ((hfol p hp).symm.trans hpt)
    · exact hI'.named
    · obtain ⟨q, hq, hqt⟩ := hall t ht
      exact ⟨q, hq, (hfol q hq).trans hqt⟩

/-- **Unmapping takes no memory exactly if it needs none.** After every run of maps that get their
pages and of unmaps, from a zeroed root table, an unmap leaves the memory manager as it is if and
only if the page table is there or no page is free; and after every run in which every unmap meets
this condition, each page taken since the start is a table of the tree. -/
theorem unmaps_take_nothing (hz : ∀ a ∈ page (physOf tbl), s₀.mem a = 0)
    (hG : Over mmap base s₀ {t | t ∈ [physOf tbl]}) :
    (∀ ops s, Run (Call (Gets tbl) tbl) s₀ ops s → ∀ v < 2 ^ 64,
      (SamePmm mmap s (vmmUnmapPage pmmSource s tbl v) ↔ NoNeed tbl s v)) ∧
    ∀ ops s, Run (Call (Frugal tbl) tbl) s₀ ops s → ∀ i ∈ freeSet s₀, i ∉ freeSet s →
      ∃ q, q.length ≤ 3 ∧ follow (presentAt s.mem) tableOf (physOf tbl) q = some (4096 * i) := by
  refine ⟨fun ops s hr v hv => ?_, fun ops s hr i hi hni => ?_⟩
  · obtain ⟨T, hI, hG'⟩ := tree_of_calls hw hf hb hz hG hr
    exact unmap_same_iff hw hf hb hI hG' hv
  · obtain ⟨T, -, ⟨live, hInv, hlive, -⟩, hall⟩ := reached_of_calls hw hf hb hz hG hr
    obtain ⟨live₀, hInv₀, hlive₀, -⟩ := hG
    obtain ⟨hmark, hcov₀⟩ := (free_iff_uncovered hInv₀).mp hi
    -- the page is live now and was not at the start
    have hcov : PhysRun.Covered live i := by
      by_contra hc
      exact hni ((free_iff_uncovered hInv).mpr ⟨hmark, hc⟩)
    obtain ⟨b, hb, h1, h2⟩ := hcov
    rcases (hlive b).mp hb with hbase | ⟨hone, hT⟩
    · exact absurd ⟨b, (hlive₀ b).mpr (Or.inl hbase), h1, h2⟩ hcov₀
    · have hal := hInv.safe.aligned b hb
      rw [show 4096 * i = b.1 by omega]
      exact hall b.1 hT

end Runs

/-! ### A run of the kernel's allocator -/

theorem rooted_over : Over smallMap [] rooted {t | t ∈ [physOf 8192]} := over_nil.mpr rooted_ok.1

/-- With the page table there an unmap takes nothing. -/
theorem unmaps_take_nothing_mapped : SamePmm smallMap (mapped .kernelRead)
    (vmmUnmapPage pmmSource (mapped .kernelRead) 8192 0) := by
  have hrun : Run (Call (Gets 8192) 8192) rooted [.map 0x5000 0 .kernelRead] (mapped .kernelRead) :=
    .cons ⟨⟨by norm_num, by norm_num, by norm_num⟩, rooted_served, rfl⟩ .nil
  have hthere : (follow (presentAt (mapped .kernelRead).mem) tableOf (physOf 8192) (path 0)).isSome =
      true := by
    decide +kernel
  have htake := (unmaps_take_nothing smallMap_wellFormed smallMap_fits (by decide) rooted_ok.2
    rooted_over).1 _ _ hrun 0 (by norm_num)
  exact htake.mpr (Or.inl (Option.isSome_iff_exists.mp hthere))

/-- **An unmap in an empty address space takes pages**, and they are in no table of the tree. -/
theorem rooted_unmap_leaks : ¬ SamePmm smallMap rooted (vmmUnmapPage pmmSource rooted 8192 0) ∧
    3 ∈ freeSet rooted ∧ 3 ∉ freeSet (vmmUnmapPage pmmSource rooted 8192 0) ∧
    ∀ q, q.length ≤ 3 →
      follow (presentAt (vmmUnmapPage pmmSource rooted 8192 0).mem) tableOf (physOf 8192) q ≠
        some (4096 * 3) := by
  have hused : (vmmUnmapPage pmmSource rooted 8192 0).pmm.usedPageCnt ≠ rooted.pmm.usedPageCnt := by
    decide +kernel
  have hfree : 3 < pageToBit rooted.pmm.hiPageTop ∧ Bmap.bit rooted.mem rooted.pmm.bitmap 3 = false := by
    decide +kernel
  have htaken : ¬ (3 < pageToBit (vmmUnmapPage pmmSource rooted 8192 0).pmm.hiPageTop ∧
      Bmap.bit (vmmUnmapPage pmmSource rooted 8192 0).mem
        (vmmUnmapPage pmmSource rooted 8192 0).pmm.bitmap 3 = false) := by
    decide +kernel
  have hI : TreeInv rooted.mem (physOf 8192) [physOf 8192] := treeInv_zeroed (by decide) rooted_ok.2
  obtain ⟨-, -, -, hfol, -⟩ := unmap_page smallMap_wellFormed smallMap_fits (by decide) hI rooted_over
    (v := 0) (by norm_num)
  refine ⟨fun h => hused (congrArg Pmm.usedPageCnt h.1), hfree, htaken, fun q hq hqt => ?_⟩
  have hmem := hI.reached q _ hq ((hfol q hq).symm.trans hqt)
  exact absurd (List.mem_singleton.mp hmem) (by decide)

end FusionCore.Mm.VirtUnmap
