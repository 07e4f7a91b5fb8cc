import FusionCore.Mm.VirtInit

/-! # Paging without memory

`vmm_set_pt_value` goes down three levels before it stores the value; `descend` is the way down. When
`pmm_allocz(1)` fails on it, NULL or-ed with the flags is stored as the entry, and the levels below are
looked up in page 0, which the failed call has cleared: the walk stays there (`AtNull`).

* `descend_null`: after a failed map a present entry of a table of the tree names page 0.
* `fails_never_cleanly`: so a failed map is never harmless, and `vmm_init` never notices that it has
  no root table. -/

namespace FusionCore.Mm.VirtFail

open FusionCore.Lib.ByteMem FusionCore.Lib.Radix
open FusionCore.Mm.Defs FusionCore.Mm.Phys FusionCore.Mm.PhysInit FusionCore.Mm.Pages
  FusionCore.Mm.PhysPages
open FusionCore.Mm.Virt FusionCore.Mm.VirtTree FusionCore.Mm.VirtSpec FusionCore.Mm.VirtInit
open FusionCore.Mm.PhysSpec (freeSet)

variable {σ : Type}

/-! ### A level without memory -/

section Level
variable {mmap : List MmapEntry} {base : List (ℕ × ℕ)} {s : Machine Pmm} {root tbl pml f : ℕ} {T : List ℕ}
  {H : Set ℕ} {i : Fin 512} {p : List (Fin 512)}

/-- The walk is in page 0 and no page is free: the entries there are empty or name page 0 again. -/
structure AtNull (f : ℕ) (s : Machine Pmm) : Prop where
  full : freeSet s = ∅
  entries : ∀ i : Fin 512, load64 s.mem (8 * i) = 0 ∨ load64 s.mem (8 * i) = f

theorem samePages_of_null {m m' : Mem} (h0 : 0 ∉ H) (hal : ∀ t ∈ H, t % 4096 = 0)
    (h : SameOutside {0} m m') : SamePages H m m' := by
  intro t ht a ha
  refine h a fun z hz hmem => ?_
  have hne : t ≠ 0 := fun he => h0 (he ▸ ht)
  have := hal t ht
  rw [Set.mem_singleton_iff.mp hz] at hmem
  simp only [page, Set.mem_Ico] at ha hmem
  omega

theorem load_cleared {m : Mem} (j : Fin 512) : load64 (fill m 0 4096 0) (8 * j) = 0 := by
  have hj := j.isLt
  refine load64_eq_zero fun b hb => fill_of_mem ⟨Nat.zero_le _, ?_⟩
  have := hb.2
  omega

variable (hw : WellFormed mmap) (hf : Fits mmap)
include hw hf

theorem level_full (hG : Over mmap base s H) (hfull : freeSet s = ∅) (hf8 : f < 8)
    (habs : load64 s.mem (physOf pml + 8 * i) &&& 1 = 0) :
    vmmGetOrCreatePml pmmSource s pml i f =
      (0, { s with mem := store64 (fill s.mem 0 4096 0) (physOf pml + 8 * i) f }) := by
  have hlt : f < 2 ^ 64 := by omega
  have hmask : f &&& (2 ^ 64 - 512) = 0 := by
    rw [and_not511 hlt]
    omega
  unfold vmmGetOrCreatePml
  simp only [if_pos habs, hG.allocz_full hw hf hfull, Nat.zero_or]
  rw [load64_store64 hlt, hmask]

variable (hb : homeBase mmap ≠ 0)
include hb

theorem level_full_pmm (hG : Over mmap base s H) (hfull : freeSet s = ∅) (hf8 : f < 8)
    (habs : load64 s.mem (physOf pml + 8 * i) &&& 1 = 0) (ht : physOf pml ∈ H ∨ physOf pml = 0) :
    SamePmm mmap s (vmmGetOrCreatePml pmmSource s pml i f).2 := by
  rw [level_full hw hf hG hfull hf8 habs]
  refine ⟨rfl, fun a ha => ?_⟩
  have hzero : a ∉ page 0 := fun hc => not_mem_bitmap_of_zero hw hf hb hc ha
  have htab : a ∉ page (physOf pml) := by
    rcases ht with ht | ht
    · exact fun hc => not_mem_bitmap_of_arena hw hf ((pmmSource_over hw hf hb base).handed hG ht) hc ha
    · rwa [ht]
  exact (store_entry_of_not_mem htab).trans (fill_of_not_mem hzero)

/-- **The first level that fails** leaves the walk in page 0. -/
theorem level_to_null (hI : TreeInv s.mem root T) (hG : Over mmap base s {t | t ∈ T})
    (hfull : freeSet s = ∅) (hf8 : f < 8) (habs : load64 s.mem (physOf pml + 8 * i) &&& 1 = 0)
    (ht : physOf pml ∈ T) :
    (vmmGetOrCreatePml pmmSource s pml i f).1 = 0 ∧ AtNull f (vmmGetOrCreatePml pmmSource s pml i f).2 ∧
    SamePages {t | t ∈ T} (store64 s.mem (physOf pml + 8 * i) f)
      (vmmGetOrCreatePml pmmSource s pml i f).2.mem ∧
    SamePmm mmap s (vmmGetOrCreatePml pmmSource s pml i f).2 := by
  have hL := pmmSource_over hw hf hb base
  have hpmm := level_full_pmm hw hf hb hG hfull hf8 habs (Or.inl ht)
  have h0 : ∀ t ∈ T, t ≠ 0 := fun t ht => (hL.pages (hL.handed hG ht)).2.1
  have hal := hI.aligned _ ht
  have hlt : f < 2 ^ 64 := by omega
  have hfree : freeSet (vmmGetOrCreatePml pmmSource s pml i f).2 = ∅ := by rw [hpmm.free hf hG, hfull]
  refine ⟨by rw [level_full hw hf hG hfull hf8 habs], ⟨hfree, fun j => ?_⟩, ?_, hpmm⟩
  · rw [level_full hw hf hG hfull hf8 habs]
    have hst := load_entry_store (m := fill s.mem 0 4096 0) (i := i) (j := j) hal (Nat.zero_mod 4096) hlt
    rw [Nat.zero_add, if_neg fun hc => h0 _ ht hc.1.symm] at hst
    exact Or.inl (hst.trans (load_cleared j))
  · rw [level_full hw hf hG hfull hf8 habs]
    intro t ht' a ha
    have hfill : fill s.mem 0 4096 0 a = s.mem a := by
      refine fill_of_not_mem fun hc => ?_
      have h1 := h0 t ht'
      have h2 := hI.aligned t ht'
      simp only [page, Set.mem_Ico] at ha hc
      omega
    show store64 _ _ _ a = store64 _ _ _ a
    unfold store64 store
    split_ifs
    · rfl
    · exact hfill

/-- **A level in page 0** stays there. -/
theorem AtNull.level (h : AtNull f s) (hG : Over mmap base s H) (hf8 : f < 8) (i : Fin 512) :
    (vmmGetOrCreatePml pmmSource s 0 i f).1 = 0 ∧ AtNull f (vmmGetOrCreatePml pmmSource s 0 i f).2 ∧
    SameOutside {0} s.mem (vmmGetOrCreatePml pmmSource s 0 i f).2.mem ∧
    SamePmm mmap s (vmmGetOrCreatePml pmmSource s 0 i f).2 := by
  have hlt : f < 2 ^ 64 := by omega
  have hphys : physOf 0 = 0 := physOf_of_lt (by norm_num)
  by_cases habs : load64 s.mem (physOf 0 + 8 * i) &&& 1 = 0
  · have hpmm := level_full_pmm hw hf hb hG h.full hf8 habs (Or.inr hphys)
    refine ⟨by rw [level_full hw hf hG h.full hf8 habs], ⟨by rw [hpmm.free hf hG, h.full], fun j => ?_⟩,
      fun a ha => ?_, hpmm⟩
    · rw [level_full hw hf hG h.full hf8 habs, hphys]
      have hst := load_entry_store (m := fill s.mem 0 4096 0) (i := i) (j := j) (Nat.zero_mod 4096)
        (Nat.zero_mod 4096) hlt
      rw [Nat.zero_add (8 * (j : ℕ))] at hst
      show load64 (store64 _ _ _) _ = 0 ∨ load64 (store64 _ _ _) _ = f
      rw [hst]
      split_ifs
      · exact Or.inr rfl
      · exact Or.inl (load_cleared j)
    · rw [level_full hw hf hG h.full hf8 habs, hphys]
      have ha0 : a ∉ page 0 := ha 0 rfl
      exact (store_entry_of_not_mem ha0).trans (fill_of_not_mem ha0)
  · -- the entry names page 0
    have hent : load64 s.mem (0 + 8 * i) = f := by
      rw [Nat.zero_add]
      refine (h.entries i).resolve_left fun h0 => habs ?_
      rw [hphys, Nat.zero_add, h0]
      rfl
    have heq : vmmGetOrCreatePml pmmSource s 0 i f = (0, s) := by
      unfold vmmGetOrCreatePml
      simp only [if_neg habs]
      rw [hphys, hent, and_not511 hlt, show f / 512 * 512 = 0 by omega]
    rw [heq]
    exact ⟨rfl, h, fun _ _ => rfl, rfl, fun _ _ => rfl⟩

theorem descend_at_null (hf8 : f < 8) : ∀ (q : List (Fin 512)) (s : Machine Pmm), AtNull f s →
    Over mmap base s H → (descend pmmSource f q (0, s)).1 = 0 ∧
    AtNull f (descend pmmSource f q (0, s)).2 ∧
      SameOutside {0} s.mem (descend pmmSource f q (0, s)).2.mem ∧
      SamePmm mmap s (descend pmmSource f q (0, s)).2
  | [], _, h, _ => ⟨rfl, h, fun _ _ => rfl, rfl, fun _ _ => rfl⟩
  | i :: q, s, h, hG => by
    obtain ⟨h1, h2, h3, h4⟩ := h.level hw hf hb hG hf8 i
    obtain ⟨g1, g2, g3, g4⟩ := descend_at_null hf8 q _ h2 (h4.over hf hG)
    have heq : descend pmmSource f (i :: q) (0, s) =
        descend pmmSource f q (0, (vmmGetOrCreatePml pmmSource s 0 i f).2) :=
      congrArg (descend pmmSource f q) (Prod.ext h1 rfl)
    rw [heq]
    exact ⟨g1, g2, fun a ha => (g3 a ha).trans (h3 a ha), h4.trans g4⟩

end Level

/-! ### A map that fails -/

section Map
variable {mmap : List MmapEntry} {base : List (ℕ × ℕ)} {s : Machine Pmm} {tbl v f value : ℕ} {T : List ℕ}

theorem follow_null {m m' : Mem} {root t : ℕ} {p : List (Fin 512)} {i : Fin 512} (hI : TreeInv m root T)
    (hf8 : f < 8) (hodd : f % 2 = 1) (hp : p.length ≤ 3)
      (hfol : follow (presentAt m) tableOf root p = some t)
    (hs : SamePages {t | t ∈ T} (store64 m (t + 8 * i) f) m') :
    follow (presentAt m') tableOf root (p ++ [i]) = some 0 := by
  have ht := hI.reached p t hp hfol
  have hlt : f < 2 ^ 64 := by omega
  have hent : ∀ t' ∈ T, ∀ j, presentAt m' t' j = if t' = t ∧ j = i then some f else presentAt m t' j := by
    intro t' ht' j
    rw [presentAt_congr (hs t' ht'), presentAt_store (hI.aligned t ht) (hI.aligned t' ht') hlt,
      if_pos hodd]
  have hsame : SameBut (presentAt m) (presentAt m') tableOf 3 root t i := by
    intro q t' j hq hqt hne
    rw [hent t' (hI.reached q t' hq hqt), if_neg]
    rintro ⟨rfl, rfl⟩
    simp at hne
  rw [follow_snoc (hsame.follow_table hI.tree hfol hp), hent t ht, if_pos ⟨rfl, rfl⟩]
  show some (f / 4096 % 2 ^ 40 * 4096) = some 0
  rw [show f / 4096 % 2 ^ 40 * 4096 = 0 by omega]

variable (hw : WellFormed mmap) (hf : Fits mmap) (hb : homeBase mmap ≠ 0)
include hw hf hb

/-- **A way down on which `pmm_allocz` fails** ends in page 0, and a table of the tree names page 0. -/
theorem descend_null (hf8 : f < 8) (hodd : f % 2 = 1) (q : List (Fin 512)) :
    ∀ (p : List (Fin 512)) (r : ℕ × Machine Pmm) (T : List ℕ), p.length + q.length ≤ 3 →
      TreeInv r.2.mem (physOf tbl) T → Over mmap base r.2 {t | t ∈ T} →
      follow (presentAt r.2.mem) tableOf (physOf tbl) p = some (physOf r.1) →
      ¬ ServedAlong pmmSource f q r → (descend pmmSource f q r).1 = 0 ∧
        ∃ q', q'.length ≤ 3 ∧ ∀ m', SameOutside {0} (descend pmmSource f q r).2.mem m' →
          follow (presentAt m') tableOf (physOf tbl) q' = some 0 := by
  induction q with
  | nil => exact fun p r T hlen hI hG hfol hs => absurd trivial hs
  | cons i q ih =>
    intro p r T hlen hI hG hfol hs
    have hL := pmmSource_over hw hf hb base
    rw [List.length_cons] at hlen
    have hmem := hI.reached p _ (by omega) hfol
    by_cases hserved : Served pmmSource r.2 r.1 i
    · -- this level is served: the failure is below
      obtain ⟨T', hc, hG'⟩ := creates_of_lawful (f := f) hL hG hmem hserved
      obtain ⟨hI', hfol', -, -⟩ := getOrCreate_map hI hf8 hodd (by omega) hfol hc
      exact ih (p ++ [i]) _ T' (by simp; omega) hI' hG' hfol' fun h => hs ⟨hserved, h⟩
    · unfold Served at hserved
      push Not at hserved
      obtain ⟨habs, h0⟩ := hserved
      have hfull := (hG.fails_iff hw hf).mp h0
      obtain ⟨h1, h2, h3, h4⟩ := level_to_null hw hf hb hI hG hfull hf8 habs hmem
      obtain ⟨g1, -, g3, -⟩ := descend_at_null hw hf hb hf8 q _ h2 (h4.over hf hG)
      have heq : descend pmmSource f (i :: q) r =
          descend pmmSource f q (0, (vmmGetOrCreatePml pmmSource r.2 r.1 i f).2) :=
        congrArg (descend pmmSource f q) (Prod.ext h1 rfl)
      rw [heq]
      refine ⟨g1, p ++ [i], by simp; omega, fun m' hm' => ?_⟩
      have hnull : SamePages {t | t ∈ T} (vmmGetOrCreatePml pmmSource r.2 r.1 i f).2.mem m' :=
        samePages_of_null (fun hc => (hL.pages (hL.handed hG hc)).2.1 rfl) hI.aligned
          fun a ha => (hm' a ha).trans (g3 a ha)
      exact follow_null hI hf8 hodd (by omega) hfol fun t ht => (hnull t ht).trans (h3 t ht)

theorem setPtValue_null (value : ℕ) (hf8 : f < 8) (hodd : f % 2 = 1) (hv : v < 2 ^ 64)
    (hI : TreeInv s.mem (physOf tbl) T) (hG : Over mmap base s {t | t ∈ T})
    (hs : ¬ AllServed pmmSource s tbl (alignDown v 4096) f) :
    ∃ q, q.length ≤ 3 ∧ follow (presentAt (vmmSetPtValue pmmSource s tbl (alignDown v 4096) f value).mem)
      tableOf (physOf tbl) q = some 0 := by
  rw [allServed_iff hv] at hs
  rw [setPtValue_eq hv]
  obtain ⟨h1, q, hq, h2⟩ :=
    descend_null hw hf hb hf8 hodd (path v) [] (tbl, s) T (by simp [path]) hI hG rfl hs
  refine ⟨q, hq, h2 _ fun a ha => ?_⟩
  rw [h1, physOf_of_lt (by norm_num)]
  exact store_entry_of_not_mem (ha 0 rfl)

omit hw hf hb in
/-- A map that could not get its pages did no harm: no table became page 0, only tables were written, and
what was mapped still is. -/
structure FailsCleanly (mmap : List MmapEntry) (root : ℕ) (m m' : Mem) : Prop where
  noNull : ∀ q, q.length ≤ 3 → follow (presentAt m') tableOf root q ≠ some 0
  frame : ∀ a, a ∉ bitmapBytes mmap →
    (∀ q t, q.length ≤ 3 → follow (presentAt m') tableOf root q = some t → a ∉ page t) → m' a = m a
  kept : ∀ w e, walk m root w = some e → walk m' root w = some e

/-- **Paging without memory never fails cleanly**: a map that runs out of pages enters page 0 as a table,
and `vmm_init` goes on without a root table. -/
theorem fails_never_cleanly :
    (∀ base s tbl T phys virt (priv : MapPriv), virt < 2 ^ 64 → TreeInv s.mem (physOf tbl) T →
      Over mmap base s {t | t ∈ T} → ¬ AllServed pmmSource s tbl (alignDown virt 4096) priv.flags →
      ¬ FailsCleanly mmap (physOf tbl) s.mem (vmmMapPage pmmSource s tbl phys virt priv.flags).mem) ∧
    ∀ entries s, (pmmSource.allocz s).1 = 0 → vmmInit pmmSource entries s ≠ none := by
  refine ⟨fun base s tbl T phys virt priv hv hI hG hs hclean => ?_, fun entries s h0 => ?_⟩
  · obtain ⟨q, hq, hnull⟩ := setPtValue_null hw hf hb (phys ||| priv.flags) priv.flags_lt
      priv.flags_odd hv hI hG hs
    exact hclean.noNull q hq hnull
  · have hroot : physToHigherHalfData (pmmSource.allocz s).1 ≠ 0 := by
      rw [h0]
      decide
    rw [vmmInit_eq hroot]
    exact Option.some_ne_none _

end Map

/-! ### A map with one page of memory -/

/-- The machine when the only free page is the root table. -/
def lastPage : Machine Pmm := (pmmSource.allocz (PhysRun.start (fewPages 1) fun _ => 0).machine).2

theorem lastPage_ok : Over (fewPages 1) [] lastPage {t | t ∈ [physOf 8192]} ∧
    TreeInv lastPage.mem (physOf 8192) [physOf 8192] := by
  have hr : (pmmSource.allocz (PhysRun.start (fewPages 1) fun _ => 0).machine).1 = 8192 := by
    decide +kernel
  obtain ⟨-, hz, -, hG⟩ :=
    (fewPages_lawful (n := 1) (by norm_num)).alloc (handed_few (by norm_num) fun _ => 0)
    (by rw [hr]; norm_num)
  rw [hr] at hz hG
  have hset : insert 8192 (∅ : Set ℕ) = {t | t ∈ [physOf 8192]} := by
    ext t
    simp [show physOf 8192 = 8192 by decide]
  rw [hset] at hG
  exact ⟨over_nil.mpr hG, treeInv_zeroed (by decide) hz⟩

theorem lastPage_not_served : ¬ AllServed pmmSource lastPage 8192 0 3 := by decide +kernel

/-- **The root table names page 0** after a map of the first page. -/
theorem lastPage_map_null : ∃ T, TreeInv lastPage.mem (physOf 8192) T ∧
    Over (fewPages 1) [] lastPage {t | t ∈ T} ∧
    ¬ AllServed pmmSource lastPage 8192 (alignDown 0 4096) MapPriv.kernelReadWrite.flags ∧
    ¬ FailsCleanly (fewPages 1) (physOf 8192) lastPage.mem
      (vmmMapPage pmmSource lastPage 8192 0x5000 0 MapPriv.kernelReadWrite.flags).mem := by
  have hload : load64
      (vmmMapPage pmmSource lastPage 8192 0x5000 0 MapPriv.kernelReadWrite.flags).mem 8192 = 3 := by
    decide +kernel
  refine ⟨_, lastPage_ok.2, lastPage_ok.1, lastPage_not_served, fun hclean =>
    hclean.noNull [0] (by simp) ?_⟩
  have hphys : physOf 8192 = 8192 := by decide
  simp only [hphys, follow, presentAt, Fin.val_zero, Nat.mul_zero, Nat.add_zero, hload]
  decide

theorem fails_never_cleanly_lastPage : ¬ FailsCleanly (fewPages 1) (physOf 8192) lastPage.mem
    (vmmMapPage pmmSource lastPage 8192 0x5000 0 MapPriv.kernelReadWrite.flags).mem :=
  (fails_never_cleanly fewPages_wellFormed (fewPages_fits (by norm_num))
    (by rw [(fewPages_bitmap (by norm_num)).2]; norm_num)).1 [] lastPage 8192 _ 0x5000 0 .kernelReadWrite
    (by norm_num) lastPage_ok.2 lastPage_ok.1 lastPage_not_served

end FusionCore.Mm.VirtFail
