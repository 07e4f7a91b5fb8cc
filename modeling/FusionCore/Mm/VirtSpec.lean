import FusionCore.Mm.VirtTree
import FusionCore.Mm.PhysPages
import FusionCore.Lib.Runs

/-! # Runs of `vmm_map_page` and `vmm_unmap_page`

A run starts from a zeroed root table; the state records the pages used as tables, and every
`pmm_allocz(1)` inside a call returns a page fresh with respect to them (`CallsFresh`).

* `walk_refines_map`: the translation of an address is what the last call for its page number says.
* `effective_iff_trail`: the access rights after `vmm_map_page` are those of its flags exactly if the
  entries that were already there on the way have them. -/

namespace FusionCore.Mm.VirtSpec

open FusionCore.Lib.ByteMem FusionCore.Lib.Radix FusionCore.Lib.Runs
open FusionCore.Mm.Defs FusionCore.Mm.Phys FusionCore.Mm.Pages FusionCore.Mm.PhysPages
open FusionCore.Mm.Virt FusionCore.Mm.VirtTree
open FusionCore.Mm.PhysSpec (smallMap)

variable {σ : Type}

/-- A call of the paging code. -/
inductive VmmOp
  | map (phys virt : ℕ) (priv : MapPriv)
  | unmap (virt : ℕ)

/-- The address a call is for. -/
def VmmOp.virt : VmmOp → ℕ
  | .map _ virt _ => virt
  | .unmap virt => virt

/-- The flags a call gives new tables. -/
def VmmOp.flags : VmmOp → ℕ
  | .map _ _ priv => priv.flags
  | .unmap _ => 0

/-- The effect of a call on the table `tbl`. -/
def exec (A : PageSource σ) (tbl : ℕ) (s : Machine σ) : VmmOp → Machine σ
  | .map phys virt priv => vmmMapPage A s tbl phys virt priv.flags
  | .unmap virt => vmmUnmapPage A s tbl virt

/-- Addresses are 64-bit values and frames are page-aligned. -/
def VmmOp.Valid : VmmOp → Prop
  | .map phys virt _ => phys % 4096 = 0 ∧ phys < 2 ^ 64 ∧ virt < 2 ^ 64
  | .unmap virt => virt < 2 ^ 64

/-- The machine and the pages used as tables. -/
structure VmmState (σ : Type) where
  machine : Machine σ
  tables : List ℕ

/-- The allocations on the three levels of `vmm_set_pt_value` are fresh; `tables'` are the pages used as
tables afterwards. -/
def CallsFresh (A : PageSource σ) (s : VmmState σ) (tbl virt flags : ℕ) (tables' : List ℕ) : Prop :=
  let pdpt := vmmGetOrCreatePml A s.machine tbl (pmlIndex virt 39) flags
  let pd := vmmGetOrCreatePml A pdpt.2 pdpt.1 (pmlIndex virt 30) flags
  ∃ tables₁ tables₂, Creates A s.tables s.machine tbl (pmlIndex virt 39) tables₁ ∧
    Creates A tables₁ pdpt.2 pdpt.1 (pmlIndex virt 30) tables₂ ∧
    Creates A tables₂ pd.2 pd.1 (pmlIndex virt 21) tables'

/-- One call. -/
def Step (A : PageSource σ) (tbl : ℕ) (s : VmmState σ) (o : VmmOp) (s' : VmmState σ) : Prop :=
  o.Valid ∧ s'.machine = exec A tbl s.machine o ∧
    CallsFresh A s tbl (alignDown o.virt 4096) o.flags s'.tables

/-- **The abstract address space**: a leaf entry or none for every page number. -/
def next (space : ℕ → Option ℕ) : VmmOp → ℕ → Option ℕ
  | .map phys virt priv => Function.update space (pageNumber virt) (some (phys ||| priv.flags))
  | .unmap virt => Function.update space (pageNumber virt) none

/-! ### `vmm_set_pt_value` -/

section SetPtValue
variable {A : PageSource σ} {s : VmmState σ} {tbl v f value : ℕ} {tables' : List ℕ}

theorem setPtValue_eq {s : Machine σ} (hv : v < 2 ^ 64) :
    vmmSetPtValue A s tbl (alignDown v 4096) f value =
    { (descend A f (path v) (tbl, s)).2 with
      mem := store64 (descend A f (path v) (tbl, s)).2.mem
        (physOf (descend A f (path v) (tbl, s)).1 + 8 * (index v 12 : ℕ)) value } := by
  unfold vmmSetPtValue
  simp only [pmlIndex_alignDown hv (show 12 ≤ 39 by norm_num),
    pmlIndex_alignDown hv (show 12 ≤ 30 by norm_num), pmlIndex_alignDown hv (show 12 ≤ 21 by norm_num),
    pmlIndex_alignDown hv (show 12 ≤ 12 by norm_num)]
  rfl

theorem callsFresh_iff (hv : v < 2 ^ 64) : CallsFresh A s tbl (alignDown v 4096) f tables' ↔
    FreshAlong A f (path v) s.tables (tbl, s.machine) tables' := by
  unfold CallsFresh
  simp only [pmlIndex_alignDown hv (show 12 ≤ 39 by norm_num),
    pmlIndex_alignDown hv (show 12 ≤ 30 by norm_num), pmlIndex_alignDown hv (show 12 ≤ 21 by norm_num)]
  constructor
  · rintro ⟨T₁, T₂, h₁, h₂, h₃⟩
    exact ⟨T₁, h₁, T₂, h₂, tables', h₃, rfl⟩
  · rintro ⟨T₁, h₁, T₂, h₂, T₃, h₃, rfl⟩
    exact ⟨T₁, T₂, h₁, h₂, h₃⟩

/-- **A store in the page table** of `v` changes one translation. -/
theorem set_leaf {m : Mem} {root pml : ℕ} {T : List ℕ} (hI : TreeInv m root T)
    (hfol : follow (presentAt m) tableOf root (path v) = some (physOf pml)) (hval : value < 2 ^ 64) :
    let m' := store64 m (physOf pml + 8 * (index v 12 : ℕ)) value
    TreeInv m' root T ∧
    (∀ q, q.length ≤ 3 → follow (presentAt m') tableOf root q = follow (presentAt m) tableOf root q) ∧
    (∀ q, q.length ≤ 3 → trail (presentAt m') tableOf root q = trail (presentAt m) tableOf root q) ∧
    ∀ w, walk m' root w =
      if pageNumber w = pageNumber v then (if value % 2 = 1 then some value else none)
      else walk m root w := by
  intro m'
  have hlen : ∀ w, (path w).length = 3 := fun _ => rfl
  have hmem := hI.reached (path v) _ (hlen v).le hfol
  have hsame : SameBut (presentAt m) (presentAt m') tableOf 3 root (physOf pml) (index v 12) := by
    intro q t j hq hqt hne
    rw [presentAt_store (hI.aligned _ hmem) (hI.aligned _ (hI.reached q t hq hqt)) hval, if_neg]
    rintro ⟨rfl, rfl⟩
    simp at hne
  have hnew : presentAt m' (physOf pml) (index v 12) = if value % 2 = 1 then some value else none := by
    rw [presentAt_store (hI.aligned _ hmem) (hI.aligned _ hmem) hval, if_pos ⟨rfl, rfl⟩]
  refine ⟨⟨tree_setLeaf hI.tree hsame hfol (hlen v), fun q t hq hqt => ?_, hI.aligned, hI.lt,
    fun q t j e hq hqt hje => ?_⟩, fun q hq => follow_setLeaf hI.tree hsame hfol (hlen v) hq,
    fun q hq => trail_setLeaf hI.tree hsame hfol (hlen v) hq, fun w => ?_⟩
  · rw [follow_setLeaf hI.tree hsame hfol (hlen v) hq] at hqt
    exact hI.reached q t hq hqt
  · rw [follow_setLeaf hI.tree hsame hfol (hlen v) hq.le] at hqt
    have hne : t ≠ physOf pml := by
      rintro rfl
      have := hI.tree q (path v) _ hq.le (hlen v).le hqt hfol
      rw [this, hlen] at hq
      omega
    rw [hsame q t j hq.le hqt (Or.inl hne)] at hje
    exact hI.named q t j e hq hqt hje
  · rw [walk, lookup_setLeaf hI.tree hsame hfol (hlen v) (hlen w).le, hnew]
    exact if_congr pageNumber_eq_iff.symm rfl rfl

/-- **Mapping**: one translation is set, and the trail grows by entries with the flags. -/
theorem setPtValue_map (hI : TreeInv s.machine.mem (physOf tbl) s.tables) (hv : v < 2 ^ 64)
    (hf : f < 8) (hodd : f % 2 = 1) (hval : value < 2 ^ 64) (hval1 : value % 2 = 1)
    (hc : CallsFresh A s tbl (alignDown v 4096) f tables') :
    let m' := (vmmSetPtValue A s.machine tbl (alignDown v 4096) f value).mem
    TreeInv m' (physOf tbl) tables' ∧
    (∀ w, walk m' (physOf tbl) w =
      if pageNumber w = pageNumber v then some value else walk s.machine.mem (physOf tbl) w) ∧
    ∃ R, trail (presentAt m') tableOf (physOf tbl) (path v) =
      trail (presentAt s.machine.mem) tableOf (physOf tbl) (path v) ++ R ∧ (∀ e ∈ R, e % 8 = f) ∧
      (trail (presentAt m') tableOf (physOf tbl) (path v)).length = 3 := by
  rw [setPtValue_eq hv]
  obtain ⟨hI', hfol, hlookup, R, htr, hR⟩ :=
    ((callsFresh_iff hv).mp hc).map (p := []) hf hodd (by simp [path]) hI rfl
  rw [List.nil_append] at hfol htr
  generalize descend A f (path v) (tbl, s.machine) = r at hI' hfol hlookup htr ⊢
  -- the leaf entry
  obtain ⟨hI'', -, htrail, hleaf⟩ := set_leaf hI' hfol hval
  have hlen : ∀ w, (path w).length = 3 := fun _ => rfl
  refine ⟨hI'', fun w => ?_, R, ?_, hR, ?_⟩
  · have hold : walk r.2.mem (physOf tbl) w = walk s.machine.mem (physOf tbl) w := hlookup _ _ (hlen w)
    rw [hleaf w, if_pos hval1, hold]
  · rw [htrail (path v) (hlen v).le, htr]
  · rw [htrail (path v) (hlen v).le, length_trail hfol, hlen]

/-- **The store of an unmap**, in the page table or on a page outside the tree. -/
theorem unmap_leaf {m : Mem} {root pml : ℕ} {T : List ℕ} (hI : TreeInv m root T)
    (hat : StandsAt m root T (path v) pml) :
    let m' := store64 m (physOf pml + 8 * (index v 12 : ℕ)) 0
    TreeInv m' root T ∧
    (∀ q, q.length ≤ 3 → follow (presentAt m') tableOf root q = follow (presentAt m) tableOf root q) ∧
    ∀ w, walk m' root w = if pageNumber w = pageNumber v then none else walk m root w := by
  have hlen : ∀ w, (path w).length = 3 := fun _ => rfl
  have h0 : (0 : ℕ) < 2 ^ 64 := by norm_num
  intro m'
  rcases hat with hfol | ⟨hnone, hmem, -, hun⟩
  · -- the page table is there: its entry is cleared
    obtain ⟨h1, h2, -, h3⟩ := set_leaf hI hfol h0
    exact ⟨h1, h2, h3⟩
  · -- the path broke off: the store goes to a page outside the tree
    have hsame : SameTree (presentAt m) (presentAt m') tableOf 3 root := by
      intro q t j hq hqt
      have hne : t ≠ physOf pml := fun h => hun q hq (h ▸ hqt)
      rw [presentAt_store (hI.aligned _ hmem) (hI.aligned _ (hI.reached q t hq hqt)) h0,
        if_neg fun h => hne h.1]
    refine ⟨hI.same hsame, fun q hq => hsame.follow_eq hq, fun w => ?_⟩
    rw [walk, hsame.lookup_eq (hlen w).le]
    split_ifs with hpn
    · rw [(pageNumber_eq_iff.mp hpn).1, lookup, hnone]
      rfl
    · rfl

/-- **Unmapping**: one translation is removed. -/
theorem setPtValue_unmap (hI : TreeInv s.machine.mem (physOf tbl) s.tables) (hv : v < 2 ^ 64)
    (hc : CallsFresh A s tbl (alignDown v 4096) 0 tables') :
    let m' := (vmmSetPtValue A s.machine tbl (alignDown v 4096) 0 0).mem
    TreeInv m' (physOf tbl) tables' ∧
    ∀ w, walk m' (physOf tbl) w =
      if pageNumber w = pageNumber v then none else walk s.machine.mem (physOf tbl) w := by
  rw [setPtValue_eq hv]
  obtain ⟨hI', hat, hsame⟩ :=
    ((callsFresh_iff hv).mp hc).unmap (p := []) (by simp [path]) hI (Or.inl rfl)
  rw [List.nil_append] at hat
  generalize descend A 0 (path v) (tbl, s.machine) = r at hI' hat hsame ⊢
  obtain ⟨hI'', -, hw⟩ := unmap_leaf (v := v) hI' hat
  refine ⟨hI'', fun w => (hw w).trans ?_⟩
  have hold : walk r.2.mem (physOf tbl) w = walk s.machine.mem (physOf tbl) w :=
    hsame.lookup_eq (show (path w).length = 3 from rfl).le
  rw [hold]

end SetPtValue

/-! ### Every run -/

section Runs
variable {A : PageSource σ} {tbl : ℕ} {s s' : VmmState σ}

/-- The tables form a tree and translate as the abstract address space. -/
def Refines (tbl : ℕ) (s : VmmState σ) (space : ℕ → Option ℕ) : Prop :=
  TreeInv s.machine.mem (physOf tbl) s.tables ∧
    ∀ v, walk s.machine.mem (physOf tbl) v = space (pageNumber v)

theorem leaf_value {phys : ℕ} (priv : MapPriv) (h1 : phys % 4096 = 0) (h2 : phys < 2 ^ 64) :
    (phys ||| priv.flags) < 2 ^ 64 ∧ (phys ||| priv.flags) % 2 = 1 ∧
      (phys ||| priv.flags) % 8 = priv.flags := by
  have hf := priv.flags_lt
  have ho := priv.flags_odd
  rw [or_flags h1 hf]
  omega

theorem refines_step {space : ℕ → Option ℕ} {o : VmmOp} (hR : Refines tbl s space)
    (hs : Step A tbl s o s') : Refines tbl s' (next space o) := by
  obtain ⟨hI, hw⟩ := hR
  obtain ⟨hv, hm, hc⟩ := hs
  cases o with
  | map phys virt priv =>
    obtain ⟨h1, h2, h3⟩ := hv
    obtain ⟨hval, hval1, -⟩ := leaf_value priv h1 h2
    obtain ⟨hI', hw', -⟩ := setPtValue_map hI h3 priv.flags_lt priv.flags_odd hval hval1 hc
    refine ⟨by rw [hm]; exact hI', fun v => ?_⟩
    rw [hm]
    show walk (vmmSetPtValue A s.machine tbl (alignDown virt 4096) priv.flags
      (phys ||| priv.flags)).mem (physOf tbl) v = _
    rw [hw' v, hw v]
    simp only [next, Function.update_apply]
  | unmap virt =>
    obtain ⟨hI', hw'⟩ := setPtValue_unmap hI hv hc
    refine ⟨by rw [hm]; exact hI', fun v => ?_⟩
    rw [hm]
    show walk (vmmSetPtValue A s.machine tbl (alignDown virt 4096) 0 0).mem (physOf tbl) v = _
    rw [hw' v, hw v]
    simp only [next, Function.update_apply]

theorem refines_start {m : Machine σ} (hr : physOf tbl % 4096 = 0)
    (hz : ∀ a ∈ page (physOf tbl), m.mem a = 0) :
    Refines tbl ⟨m, [physOf tbl]⟩ (fun _ => none) := by
  have hI := treeInv_zeroed hr hz
  refine ⟨hI, fun v => ?_⟩
  show lookup (presentAt m.mem) tableOf (physOf tbl) (path v) (index v 12) = none
  simp [lookup, path, follow, presentAt_zeroed hz]

/-! ### Runs over a lawful source -/

/-- No `pmm_allocz(1)` on the three levels of `vmm_set_pt_value` returns NULL. -/
def AllServed (A : PageSource σ) (s : Machine σ) (tbl virt flags : ℕ) : Prop :=
  let pdpt := vmmGetOrCreatePml A s tbl (pmlIndex virt 39) flags
  let pd := vmmGetOrCreatePml A pdpt.2 pdpt.1 (pmlIndex virt 30) flags
  Served A s tbl (pmlIndex virt 39) ∧ Served A pdpt.2 pdpt.1 (pmlIndex virt 30) ∧
    Served A pd.2 pd.1 (pmlIndex virt 21)

theorem allServed_iff {s : Machine σ} {v f : ℕ} (hv : v < 2 ^ 64) :
    AllServed A s tbl (alignDown v 4096) f ↔ ServedAlong A f (path v) (tbl, s) := by
  unfold AllServed
  simp only [pmlIndex_alignDown hv (show 12 ≤ 39 by norm_num),
    pmlIndex_alignDown hv (show 12 ≤ 30 by norm_num), pmlIndex_alignDown hv (show 12 ≤ 21 by norm_num),
    path, ServedAlong, and_true]

theorem VmmOp.flags_cases (o : VmmOp) : (o.flags < 8 ∧ o.flags % 2 = 1) ∨ o.flags = 0 := by
  cases o with
  | map phys virt priv => exact Or.inl ⟨priv.flags_lt, priv.flags_odd⟩
  | unmap virt => exact Or.inr rfl

theorem VmmOp.Valid.virt_lt {o : VmmOp} (h : o.Valid) : o.virt < 2 ^ 64 := by
  cases o with
  | map phys virt priv => exact h.2.2
  | unmap virt => exact h

theorem VmmOp.reaches_root (o : VmmOp) {m : Mem} {T : List ℕ} :
    Reaches o.flags m (physOf tbl) T [] tbl := by
  rcases o.flags_cases with ⟨h1, h2⟩ | h
  · exact Or.inl ⟨h1, h2, rfl⟩
  · exact Or.inr ⟨h, Or.inl rfl⟩

/-- **Over a lawful source that is not exhausted every call is a step**, and the pages used as tables are
handed out. -/
theorem step_of_lawful {arena : Set ℕ} {Good : Machine σ → Set ℕ → Prop} {o : VmmOp}
    (hL : Lawful A arena Good)
    (hI : TreeInv s.machine.mem (physOf tbl) s.tables) (hG : Good s.machine {t | t ∈ s.tables})
    (hv : o.Valid) (hs : AllServed A s.machine tbl (alignDown o.virt 4096) o.flags) :
    ∃ s', Step A tbl s o s' ∧ Good s'.machine {t | t ∈ s'.tables} := by
  have hvirt := hv.virt_lt
  have hlen : ([] : List (Fin 512)).length + (path o.virt).length ≤ 3 := by simp [path]
  obtain ⟨T', hfresh, hG'⟩ :=
    fresh_of_served hL hlen hI hG o.reaches_root ((allServed_iff hvirt).mp hs)
  obtain ⟨hI', hat⟩ := hfresh.reaches hlen hI o.reaches_root
  refine ⟨⟨exec A tbl s.machine o, T'⟩, ⟨hv, rfl, (callsFresh_iff hvirt).mpr hfresh⟩, ?_⟩
  -- the leaf is stored in the page table
  have hmem := hat.mem hI' (by simp [path])
  have hleaf : ∀ value, Good (vmmSetPtValue A s.machine tbl (alignDown o.virt 4096) o.flags value)
      {t | t ∈ T'} := by
    intro value
    rw [setPtValue_eq hvirt]
    exact hL.write hG' fun a ha => store_entry_of_not_mem (ha _ (hL.handed hG' hmem))
  cases o with
  | map phys virt priv => exact hleaf _
  | unmap virt => exact hleaf _

end Runs

/-! ### A run of the kernel's allocator -/

/-- The machine after `root_page_tbl` has been allocated. -/
def rooted : Machine Pmm := (pmmSource.allocz booted).2

theorem rooted_ok : Handed smallMap rooted {t | t ∈ [physOf 8192]} ∧
    ∀ a ∈ page (physOf 8192), rooted.mem a = 0 := by
  have hr : (pmmSource.allocz booted).1 = 8192 := by decide +kernel
  obtain ⟨-, hz, -, hG'⟩ := smallMap_lawful.alloc handed_booted (by rw [hr]; norm_num)
  rw [hr] at hz hG'
  refine ⟨?_, hz⟩
  show Handed smallMap (pmmSource.allocz booted).2 {t | t ∈ [8192]}
  simpa using hG'

theorem rooted_step (phys virt : ℕ) (priv : MapPriv) (hv : (VmmOp.map phys virt priv).Valid)
    (hs : AllServed pmmSource rooted 8192 (alignDown virt 4096) priv.flags) :
    ∃ s, Step pmmSource 8192 ⟨rooted, [physOf 8192]⟩ (.map phys virt priv) s ∧
      Handed smallMap s.machine {t | t ∈ s.tables} :=
  step_of_lawful (s := ⟨rooted, [physOf 8192]⟩) smallMap_lawful
    (treeInv_zeroed (by decide) rooted_ok.2) rooted_ok.1 hv hs

instance (s : Machine Pmm) (pml i : ℕ) : Decidable (Served pmmSource s pml i) := by
  unfold Served; infer_instance

instance (s : Machine Pmm) (tbl virt flags : ℕ) :
    Decidable (AllServed pmmSource s tbl virt flags) := by
  unfold AllServed; infer_instance

theorem rooted_served : AllServed pmmSource rooted 8192 0 1 := by decide +kernel

/-- The machine after a page has been mapped at 0. -/
def mapped (priv : MapPriv) : Machine Pmm := exec pmmSource 8192 rooted (.map 0x5000 0 priv)

theorem mapped_step (priv priv' : MapPriv) (h₁ : AllServed pmmSource rooted 8192 0 priv.flags)
    (h₂ : AllServed pmmSource (mapped priv) 8192 0x1000 priv'.flags) : ∃ s₁ s₂,
      Run (Step pmmSource 8192) ⟨rooted, [physOf 8192]⟩ [.map 0x5000 0 priv] s₁ ∧
        Step pmmSource 8192 s₁ (.map 0x6000 0x1000 priv') s₂ ∧ s₁.machine = mapped priv ∧
        Handed smallMap s₂.machine {t | t ∈ s₂.tables} := by
  obtain ⟨s₁, hs₁, hG₁⟩ := rooted_step 0x5000 0 priv ⟨by norm_num, by norm_num, by norm_num⟩ h₁
  have hI₁ := (refines_step (refines_start (by decide) rooted_ok.2) hs₁).1
  have hm₁ : s₁.machine = mapped priv := hs₁.2.1
  have hv : (VmmOp.map 0x6000 0x1000 priv').Valid := ⟨by norm_num, by norm_num, by norm_num⟩
  have hserved : AllServed pmmSource s₁.machine 8192 (alignDown 0x1000 4096) priv'.flags := by
    rw [hm₁, show alignDown 0x1000 4096 = 0x1000 by decide]
    exact h₂
  obtain ⟨s₂, hs₂, hG₂⟩ := step_of_lawful smallMap_lawful hI₁ hG₁ hv hserved
  exact ⟨s₁, s₂, .cons hs₁ .nil, hs₂, hm₁, hG₂⟩

theorem mapped_served : AllServed pmmSource (mapped .kernelRead) 8192 0x1000 7 := by decide +kernel

/-! ### The refinement -/

section Refinement
variable {A : PageSource σ} {tbl : ℕ} {s : VmmState σ}

/-- **Page-table refinement.** After any run from a zeroed root table the translation of every address
is what the calls for its page number left: the leaf entry of the last map, or none after an unmap or
without a call. -/
theorem walk_refines_map {m : Machine σ} {ops : List VmmOp} (hroot : physOf tbl % 4096 = 0)
    (hz : ∀ a ∈ page (physOf tbl), m.mem a = 0)
    (hr : Run (Step A tbl) ⟨m, [physOf tbl]⟩ ops s) (v : ℕ) :
    walk s.machine.mem (physOf tbl) v = ops.foldl next (fun _ => none) (pageNumber v) :=
  (hr.simulates (refines_start hroot hz) fun _ _ _ _ => refines_step).2 v

end Refinement

/-- Two pages next to each other. -/
theorem walk_refines_map_rooted : ∃ s, Run (Step pmmSource 8192) ⟨rooted, [physOf 8192]⟩
    [.map 0x5000 0 .kernelRead, .map 0x6000 0x1000 .userReadWrite] s ∧
    walk s.machine.mem (physOf 8192) 0x123 = some 0x5001 ∧
    walk s.machine.mem (physOf 8192) 0x1123 = some 0x6007 ∧
    walk s.machine.mem (physOf 8192) 0x2123 = none := by
  obtain ⟨s₁, s₂, hr₁, hs₂, -⟩ := mapped_step .kernelRead .userReadWrite rooted_served mapped_served
  have hrun : Run (Step pmmSource 8192) ⟨rooted, [physOf 8192]⟩
      [.map 0x5000 0 .kernelRead, .map 0x6000 0x1000 .userReadWrite] s₂ := hr₁.append (.cons hs₂ .nil)
  have hwalk := walk_refines_map (by decide) rooted_ok.2 hrun
  exact ⟨s₂, hrun, (hwalk 0x123).trans (by decide), (hwalk 0x1123).trans (by decide),
    (hwalk 0x2123).trans (by decide)⟩

/-! ### Access rights -/

section Rights
variable {A : PageSource σ} {tbl : ℕ} {s s' : VmmState σ}

/-- Whether an address can be written and whether user code can access it. -/
structure Access where
  writable : Bool
  user : Bool
  deriving DecidableEq, Repr

/-- The rights a privilege stands for: its read/write and its user bit. -/
def access (priv : MapPriv) : Access := ⟨priv.flags.testBit 1, priv.flags.testBit 2⟩

/-- The entries the walk of `v` reads, from the root on, up to the first that is missing. -/
def levels (m : Mem) (root v : ℕ) : List ℕ := trail (presentAt m) tableOf root (path v ++ [index v 12])

/-- Bit `k` is set at all four levels. -/
def allLevels (m : Mem) (root v k : ℕ) : Bool :=
  (levels m root v).length == 4 && (levels m root v).all fun e => e.testBit k

/-- **The access rights of `v`** as the processor computes them. -/
def effective (m : Mem) (root v : ℕ) : Access := ⟨allLevels m root v 1, allLevels m root v 2⟩

theorem testBit_of_mod_eight {e f k : ℕ} (h : e % 8 = f) (hk : k < 3) : e.testBit k = f.testBit k := by
  rw [← h, show (8 : ℕ) = 2 ^ 3 by norm_num, Nat.testBit_mod_two_pow]
  simp [hk]

/-- A list continued by entries with the flags `f` has bit `k` throughout exactly if its beginning has
it where `f` has. -/
theorem all_testBit_append {L R : List ℕ} {f k : ℕ} (hk : k < 3) (hR : ∀ e ∈ R, e % 8 = f)
    (hne : R ≠ []) : (L ++ R).all (fun e => e.testBit k) = f.testBit k ↔
      (f.testBit k = true → ∀ e ∈ L, e.testBit k = true) := by
  have hbit : ∀ e ∈ R, e.testBit k = f.testBit k := fun e he => testBit_of_mod_eight (hR e he) hk
  obtain ⟨x, hx⟩ := List.exists_mem_of_ne_nil R hne
  cases hf : f.testBit k with
  | false =>
    have : (L ++ R).all (fun e => e.testBit k) = false :=
      List.all_eq_false.mpr ⟨x, by simp [hx], by simp [hbit x hx, hf]⟩
    simp [this]
  | true =>
    have hRt : ∀ e ∈ R, e.testBit k = true := fun e he => (hbit e he).trans hf
    rw [List.all_eq_true]
    refine ⟨fun h _ e he => h e (by simp [he]), fun h e he => ?_⟩
    rcases List.mem_append.mp he with he | he
    · exact h rfl e he
    · exact hRt e he

/-- The levels after a map: the entries that were there on the way to the page table, then entries with
the flags of the map. -/
theorem levels_map {phys virt : ℕ} {priv : MapPriv}
    (hI : TreeInv s.machine.mem (physOf tbl) s.tables) (hs : Step A tbl s (.map phys virt priv) s') :
    ∃ R, levels s'.machine.mem (physOf tbl) virt =
        trail (presentAt s.machine.mem) tableOf (physOf tbl) (path virt) ++ R ∧
      (∀ e ∈ R, e % 8 = priv.flags) ∧ R ≠ [] ∧ (levels s'.machine.mem (physOf tbl) virt).length = 4 := by
  obtain ⟨⟨h1, h2, h3⟩, hm, hc⟩ := hs
  obtain ⟨hval, hval1, hval8⟩ := leaf_value priv h1 h2
  obtain ⟨-, hw, R, htr, hR, hlen⟩ := setPtValue_map hI h3 priv.flags_lt priv.flags_odd hval hval1 hc
  have hm : s'.machine.mem = (vmmSetPtValue A s.machine tbl (alignDown virt 4096) priv.flags
    (phys ||| priv.flags)).mem := congrArg Machine.mem hm
  rw [← hm] at hw htr hlen
  have hleaf := hw virt
  rw [if_pos rfl, walk, lookup, Option.bind_eq_some_iff] at hleaf
  obtain ⟨t, hfol, ht⟩ := hleaf
  have hlev : levels s'.machine.mem (physOf tbl) virt =
      trail (presentAt s'.machine.mem) tableOf (physOf tbl) (path virt) ++ [phys ||| priv.flags] := by
    rw [levels, trail_append hfol]
    simp [trail, ht]
  refine ⟨R ++ [phys ||| priv.flags], by rw [hlev, htr, List.append_assoc], fun e he => ?_, by simp, ?_⟩
  · rcases List.mem_append.mp he with he | he
    · exact hR e he
    · rw [List.mem_singleton.mp he]
      exact hval8
  · rw [hlev, List.length_append, hlen]
    rfl

/-- **Effective rights.** After any run from a zeroed root table, `vmm_map_page` gives the address the
rights of its flags if and only if every entry that was already present on the way to its page table is
writable, if the flags are, and open to user code, if the flags are. -/
theorem effective_iff_trail {m : Machine σ} {ops : List VmmOp} {phys virt : ℕ} {priv : MapPriv}
    (hroot : physOf tbl % 4096 = 0) (hz : ∀ a ∈ page (physOf tbl), m.mem a = 0)
    (hr : Run (Step A tbl) ⟨m, [physOf tbl]⟩ ops s) (hs : Step A tbl s (.map phys virt priv) s') :
    effective s'.machine.mem (physOf tbl) virt = access priv ↔
      ∀ e ∈ trail (presentAt s.machine.mem) tableOf (physOf tbl) (path virt),
        ((access priv).writable = true → e.testBit 1 = true) ∧
        ((access priv).user = true → e.testBit 2 = true) := by
  have hI := (hr.simulates (refines_start hroot hz) fun _ _ _ _ => refines_step).1
  obtain ⟨R, hlev, hR, hne, hlen⟩ := levels_map hI hs
  have hall : ∀ k, allLevels s'.machine.mem (physOf tbl) virt k =
      (trail (presentAt s.machine.mem) tableOf (physOf tbl) (path virt) ++ R).all
        fun e => e.testBit k := fun k => by
    rw [allLevels, hlen, hlev, beq_self_eq_true, Bool.true_and]
  rw [effective, access, Access.mk.injEq, hall, hall, all_testBit_append (by norm_num) hR hne,
    all_testBit_append (by norm_num) hR hne]
  constructor
  · rintro ⟨h1, h2⟩ e he
    exact ⟨fun h => h1 h e he, fun h => h2 h e he⟩
  · intro h
    exact ⟨fun hf e he => (h e he).1 hf, fun hf e he => (h e he).2 hf⟩

end Rights

/-- A page of kernel data next to a page of user data, whose tables can be written. -/
theorem effective_iff_trail_rooted : ∃ s s', Run (Step pmmSource 8192) ⟨rooted, [physOf 8192]⟩
    [.map 0x5000 0 .userReadWrite] s ∧ Step pmmSource 8192 s (.map 0x6000 0x1000 .kernelReadWrite) s' ∧
    effective s'.machine.mem (physOf 8192) 0x1000 = access .kernelReadWrite := by
  obtain ⟨s₁, s₂, hr₁, hs₂, hm₁, -⟩ := mapped_step .userReadWrite .kernelReadWrite (by decide +kernel)
    (by decide +kernel)
  refine ⟨s₁, s₂, hr₁, hs₂, (effective_iff_trail (by decide) rooted_ok.2 hr₁ hs₂).mpr ?_⟩
  have htrail : ∀ e ∈ trail (presentAt (mapped .userReadWrite).mem) tableOf (physOf 8192) (path 0x1000),
      e.testBit 1 = true ∧ e.testBit 2 = true := by decide +kernel
  intro e he
  rw [hm₁] at he
  exact ⟨fun _ => (htrail e he).1, fun _ => (htrail e he).2⟩

theorem mapped_trail :
    ∃ e ∈ trail (presentAt (mapped .kernelRead).mem) tableOf (physOf 8192) (path 0x1000),
      e.testBit 1 = false := by
  have h : (trail (presentAt (mapped .kernelRead).mem) tableOf (physOf 8192) (path 0x1000)).any
      (fun e => !e.testBit 1) = true := by decide +kernel
  simpa using h

/-- A page of user data mapped next to a page of kernel code: the tables on the way are those of the
first mapping, so that nobody can write to it. -/
theorem user_page_not_writable : ∃ s, Run (Step pmmSource 8192) ⟨rooted, [physOf 8192]⟩
    [.map 0x5000 0 .kernelRead, .map 0x6000 0x1000 .userReadWrite] s ∧
    effective s.machine.mem (physOf 8192) 0x1000 ≠ access .userReadWrite := by
  obtain ⟨s₁, s₂, hr₁, hs₂, hm₁, -⟩ := mapped_step .kernelRead .userReadWrite rooted_served mapped_served
  have hI₁ := (hr₁.simulates (refines_start (by decide) rooted_ok.2) fun _ _ _ _ => refines_step).1
  refine ⟨s₂, hr₁.append (.cons hs₂ .nil), fun heq => ?_⟩
  obtain ⟨e, he, hbit⟩ := mapped_trail
  rw [← hm₁] at he
  obtain ⟨R, hlev, -⟩ := levels_map hI₁ hs₂
  rw [effective, access, Access.mk.injEq] at heq
  have hall := heq.1
  rw [show MapPriv.userReadWrite.flags.testBit 1 = true by decide, allLevels, Bool.and_eq_true,
    List.all_eq_true] at hall
  have := hall.2 e (by rw [hlev]; exact List.mem_append_left _ he)
  rw [hbit] at this
  exact absurd this (by simp)

end FusionCore.Mm.VirtSpec
