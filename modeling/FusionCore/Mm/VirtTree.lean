import FusionCore.Mm.Virt

/-! # The tree of page tables

`TreeInv`: the present entries form a tree of depth 3, its tables are pages used as tables, and the code's
mask `~511` names the same table as the processor's. The pages used as tables are recorded in a list;
`Creates` says that `vmm_get_or_create_pml`, where it calls `pmm_allocz(1)`, gets a page that is fresh
with respect to it.

`vmm_get_or_create_pml` on a table of the tree (`getOrCreate_present`, `getOrCreate_create`,
`getOrCreate_junk`): it returns the child, hangs a fresh empty one in, or, with the flags 0 of an unmap,
returns a fresh page that is no table of the tree. `descend` calls it along a path: `FreshAlong.map` and
`FreshAlong.unmap` say where the two ways down end. -/

namespace FusionCore.Mm.VirtTree

open FusionCore.Lib.ByteMem FusionCore.Lib.Radix
open FusionCore.Mm.Defs FusionCore.Mm.Pages FusionCore.Mm.Virt

variable {σ : Type}

/-! ### Fresh pages -/

/-- `pmm_allocz(1)` in state `s` returns a zeroed, page-aligned page below `2 ^ 52` that is none of
`tables`, and leaves the pages of `tables` as they are. -/
structure FreshPage (A : PageSource σ) (tables : List ℕ) (s : Machine σ) : Prop where
  aligned : (A.allocz s).1 % 4096 = 0
  lt : (A.allocz s).1 < 2 ^ 52
  fresh : (A.allocz s).1 ∉ tables
  zeroed : ∀ a ∈ page (A.allocz s).1, (A.allocz s).2.mem a = 0
  frame : ∀ t ∈ tables, Set.EqOn (A.allocz s).2.mem s.mem (page t)

/-- The allocation in `vmm_get_or_create_pml`, if it makes one, is fresh; `tables'` are the pages used as
tables afterwards. -/
def Creates (A : PageSource σ) (tables : List ℕ) (s : Machine σ) (pml i : ℕ) (tables' : List ℕ) : Prop :=
  if load64 s.mem (physOf pml + 8 * i) &&& 1 = 0 then
    FreshPage A tables s ∧ tables' = (A.allocz s).1 :: tables
  else tables' = tables

/-! ### Entries of tables -/

section Entries
variable {m m' : Mem} {t t' v : ℕ} {i j : Fin 512}

theorem load_entry_store (ht : t % 4096 = 0) (ht' : t' % 4096 = 0) (hv : v < 2 ^ 64) :
    load64 (store64 m (t + 8 * i) v) (t' + 8 * j) =
      if t' = t ∧ j = i then v else load64 m (t' + 8 * j) := by
  have hi := i.isLt
  have hj := j.isLt
  split_ifs with h
  · rw [h.1, h.2, load64_store64 hv]
  · refine load64_store64_of_disjoint ?_
    have hne : t' ≠ t ∨ (j : ℕ) ≠ i := by
      by_contra hn
      push Not at hn
      exact h ⟨hn.1, Fin.ext hn.2⟩
    omega

theorem store_entry_of_not_mem {a : ℕ} (ha : a ∉ page t) : store64 m (t + 8 * i) v a = m a := by
  have hi := i.isLt
  refine store64_of_not_mem fun hc => ha ⟨?_, ?_⟩
  · have := hc.1; omega
  · have := hc.2; omega

theorem presentAt_store (ht : t % 4096 = 0) (ht' : t' % 4096 = 0) (hv : v < 2 ^ 64) :
    presentAt (store64 m (t + 8 * i) v) t' j =
      if t' = t ∧ j = i then (if v % 2 = 1 then some v else none) else presentAt m t' j := by
  unfold presentAt
  rw [load_entry_store ht ht' hv]
  split_ifs <;> rfl

theorem presentAt_congr (h : Set.EqOn m' m (page t)) : presentAt m' t i = presentAt m t i := by
  have hi := i.isLt
  unfold presentAt
  have hl : load64 m' (t + 8 * i) = load64 m (t + 8 * i) :=
    load64_congr fun b hb => h ⟨by have := hb.1; omega, by have := hb.2; omega⟩
  rw [hl]

theorem presentAt_zeroed (h : ∀ a ∈ page t, m a = 0) : presentAt m t i = none := by
  have hi := i.isLt
  unfold presentAt
  rw [load64_eq_zero fun b hb => h b ⟨by have := hb.1; omega, by have := hb.2; omega⟩]
  rfl

theorem and_one_eq_zero {e : ℕ} : e &&& 1 = 0 ↔ ¬ e % 2 = 1 := by
  rw [Nat.and_one_is_mod]; omega

end Entries

/-! ### The invariant -/

/-- **The page tables below `root` form a tree** of pages of `tables`. -/
structure TreeInv (m : Mem) (root : ℕ) (tables : List ℕ) : Prop where
  tree : Tree (presentAt m) tableOf 3 root
  reached : ∀ p t, p.length ≤ 3 → follow (presentAt m) tableOf root p = some t → t ∈ tables
  aligned : ∀ t ∈ tables, t % 4096 = 0
  lt : ∀ t ∈ tables, t = root ∨ t < 2 ^ 52
  named : ∀ p t i e, p.length < 3 → follow (presentAt m) tableOf root p = some t →
    presentAt m t i = some e → e / 512 * 512 = tableOf e

variable {A : PageSource σ} {s : Machine σ} {root t pml f : ℕ} {tables tables' : List ℕ}
  {p : List (Fin 512)} {i : Fin 512}

theorem TreeInv.sameTree {m m' : Mem} (h : TreeInv m root tables)
    (hs : SamePages {t | t ∈ tables} m m') : SameTree (presentAt m) (presentAt m') tableOf 3 root :=
  fun p t _ hp ht => presentAt_congr (hs t (h.reached p t hp ht))

theorem TreeInv.walk_congr {m m' : Mem} (h : TreeInv m root tables)
    (hs : SamePages {t | t ∈ tables} m m') (v : ℕ) : walk m' root v = walk m root v :=
  (h.sameTree hs).lookup_eq (by simp [path])

theorem TreeInv.same {m m' : Mem} (h : TreeInv m root tables)
    (hs : SameTree (presentAt m) (presentAt m') tableOf 3 root) : TreeInv m' root tables := by
  refine ⟨hs.tree h.tree, fun q t hq hqt => ?_, h.aligned, h.lt, fun q t j e hq hqt hje => ?_⟩
  · rw [hs.follow_eq hq] at hqt
    exact h.reached q t hq hqt
  · rw [hs.follow_eq hq.le] at hqt
    rw [hs q t j hq.le hqt] at hje
    exact h.named q t j e hq hqt hje

theorem TreeInv.cons {m : Mem} (h : TreeInv m root tables) (ht : t % 4096 = 0) (hlt : t < 2 ^ 52) :
    TreeInv m root (t :: tables) := by
  refine ⟨h.tree, fun q t' hq hqt => List.mem_cons_of_mem _ (h.reached q t' hq hqt), fun t' ht' => ?_,
    fun t' ht' => ?_, h.named⟩
  · rcases List.mem_cons.mp ht' with rfl | ht'
    · exact ht
    · exact h.aligned t' ht'
  · rcases List.mem_cons.mp ht' with rfl | ht'
    · exact Or.inr hlt
    · exact h.lt t' ht'

theorem TreeInv.physOf_eq {m : Mem} (h : TreeInv m root tables) (hp : p.length < 3)
    (ht : follow (presentAt m) tableOf root (p ++ [i]) = some t) : physOf t = t := by
  have hlen : (p ++ [i]).length ≤ 3 := by simp; omega
  rcases h.lt t (h.reached _ _ hlen ht) with rfl | hlt
  · have := h.tree (p ++ [i]) [] t hlen (by simp) ht rfl
    exact absurd this (by simp)
  · exact physOf_of_lt hlt

theorem treeInv_zeroed {m : Mem} (hr : root % 4096 = 0) (hz : ∀ a ∈ page root, m a = 0) :
    TreeInv m root [root] := by
  have hnone : ∀ i, presentAt m root i = none := fun i => presentAt_zeroed hz
  have hf : ∀ p t, follow (presentAt m) tableOf root p = some t → p = [] ∧ t = root := by
    intro p t h
    cases p with
    | nil => cases h; exact ⟨rfl, rfl⟩
    | cons i p => simp [follow, hnone] at h
  refine ⟨fun p q t _ _ h1 h2 => ?_, fun p t _ h => ?_, ?_, ?_, fun p t i e _ h1 h2 => ?_⟩
  · rw [(hf p t h1).1, (hf q t h2).1]
  · rw [(hf p t h).2]; simp
  · simp [hr]
  · simp
  · rw [(hf p t h1).2, hnone] at h2
    exact absurd h2 (by simp)

/-! ### `vmm_get_or_create_pml` on a table of the tree -/

/-- **The child is there**: nothing changes. -/
theorem getOrCreate_present {e : ℕ} (hI : TreeInv s.mem root tables) (hp : p.length < 3)
    (ht : follow (presentAt s.mem) tableOf root p = some t) (hpml : physOf pml = t)
    (he : presentAt s.mem t i = some e) (hc : Creates A tables s pml i tables') :
    vmmGetOrCreatePml A s pml i f = (tableOf e, s) ∧ tables' = tables := by
  have hodd : load64 s.mem (t + 8 * i) % 2 = 1 ∧ load64 s.mem (t + 8 * i) = e := by
    unfold presentAt at he
    split_ifs at he with h
    exact ⟨h, Option.some.inj he⟩
  have hn : ¬ load64 s.mem (t + 8 * i) &&& 1 = 0 := by rw [and_one_eq_zero]; simp [hodd.1]
  have hname := hI.named p t i e hp ht he
  unfold Creates at hc
  rw [hpml, if_neg hn] at hc
  refine ⟨?_, hc⟩
  unfold vmmGetOrCreatePml
  simp only [hpml, if_neg hn]
  rw [hodd.2, and_not511 (by rw [← hodd.2]; exact load64_lt _ _), hname]

section Create
variable (hI : TreeInv s.mem root tables) (hf : f < 8) (hpml : physOf pml = t) (ht : t ∈ tables)
  (he : presentAt s.mem t i = none) (hc : Creates A tables s pml i tables')
include hI hf hpml ht he hc

omit hI ht in
/-- **The child is missing**: a fresh page is entered with the flags. -/
theorem getOrCreate_absent :
    FreshPage A tables s ∧ tables' = (A.allocz s).1 :: tables ∧
    vmmGetOrCreatePml A s pml i f = ((A.allocz s).1,
      { (A.allocz s).2 with
        mem := store64 (A.allocz s).2.mem (t + 8 * i) ((A.allocz s).1 + f) }) := by
  have hz : load64 s.mem (t + 8 * i) &&& 1 = 0 := by
    rw [and_one_eq_zero]
    intro h
    simp [presentAt, h] at he
  unfold Creates at hc
  rw [hpml, if_pos hz] at hc
  obtain ⟨hfresh, htab⟩ := hc
  refine ⟨hfresh, htab, ?_⟩
  have hor := or_flags hfresh.aligned hf
  have hlt : (A.allocz s).1 + f < 2 ^ 64 := by have := hfresh.lt; omega
  have hmask : (A.allocz s).1 + f &&& (2 ^ 64 - 512) = (A.allocz s).1 := by
    rw [and_not511 hlt]
    have := hfresh.aligned
    omega
  unfold vmmGetOrCreatePml
  simp only [hpml, if_pos hz, hor]
  rw [load64_store64 hlt, hmask]

theorem presentAt_create (t' : ℕ) (ht' : t' ∈ tables) (j : Fin 512) :
    presentAt (vmmGetOrCreatePml A s pml i f).2.mem t' j =
      if t' = t ∧ j = i then (if f % 2 = 1 then some ((A.allocz s).1 + f) else none)
      else presentAt s.mem t' j := by
  obtain ⟨hfresh, -, hr⟩ := getOrCreate_absent hf hpml he hc
  have hlt : (A.allocz s).1 + f < 2 ^ 64 := by have := hfresh.lt; omega
  have hpar : ((A.allocz s).1 + f) % 2 = f % 2 := by have := hfresh.aligned; omega
  rw [hr, presentAt_store (hI.aligned t ht) (hI.aligned t' ht') hlt, hpar,
    presentAt_congr (hfresh.frame t' ht')]

theorem zeroed_create : ∀ a ∈ page (A.allocz s).1,
    (vmmGetOrCreatePml A s pml i f).2.mem a = 0 := by
  obtain ⟨hfresh, -, hr⟩ := getOrCreate_absent hf hpml he hc
  intro a ha
  rw [hr]
  have hne : (A.allocz s).1 ≠ t := fun h => hfresh.fresh (h ▸ ht)
  have h1 := hI.aligned t ht
  have h2 := hfresh.aligned
  have hi := i.isLt
  obtain ⟨ha1, ha2⟩ := ha
  show store64 _ _ _ a = 0
  rw [store64_of_not_mem, hfresh.zeroed a ⟨ha1, ha2⟩]
  rintro ⟨hb1, hb2⟩
  omega

end Create

/-- **A missing child is created**: with the present flag, a fresh empty table is hung into the tree. -/
theorem getOrCreate_create (hI : TreeInv s.mem root tables) (hf : f < 8) (hodd : f % 2 = 1)
    (hp : p.length < 3) (hfol : follow (presentAt s.mem) tableOf root p = some t)
    (hpml : physOf pml = t) (he : presentAt s.mem t i = none)
    (hc : Creates A tables s pml i tables') :
    AddChild (presentAt s.mem) (presentAt (vmmGetOrCreatePml A s pml i f).2.mem) tableOf 3 root p t i
      ((A.allocz s).1 + f) ∧
    (vmmGetOrCreatePml A s pml i f).1 = tableOf ((A.allocz s).1 + f) ∧
    TreeInv (vmmGetOrCreatePml A s pml i f).2.mem root tables' := by
  have ht := hI.reached p t hp.le hfol
  obtain ⟨hfresh, htab, hr⟩ := getOrCreate_absent hf hpml he hc
  have hent := presentAt_create hI hf hpml ht he hc
  have hzero := zeroed_create hI hf hpml ht he hc
  have h1 := hfresh.aligned
  have h2 := hfresh.lt
  have hname : tableOf ((A.allocz s).1 + f) = (A.allocz s).1 := by
    unfold tableOf
    omega
  have hadd : AddChild (presentAt s.mem) (presentAt (vmmGetOrCreatePml A s pml i f).2.mem) tableOf 3
      root p t i ((A.allocz s).1 + f) := by
    refine ⟨fun q t' j hq hqt hne => ?_, hfol, hp, he, ?_, fun q hq hqt => ?_, fun j => ?_⟩
    · rw [hent t' (hI.reached q t' hq hqt) j, if_neg]
      rintro ⟨rfl, rfl⟩
      simp at hne
    · rw [hent t ht i, if_pos ⟨rfl, rfl⟩, if_pos hodd]
    · rw [hname] at hqt
      exact hfresh.fresh (hI.reached q _ hq hqt)
    · rw [hname]
      exact presentAt_zeroed hzero
  refine ⟨hadd, by rw [hname, hr], hadd.tree hI.tree, fun q t' hq hqt => ?_, fun t' ht' => ?_,
    fun t' ht' => ?_, fun q t' j e hq hqt hje => ?_⟩
  · rw [hadd.follow_eq hI.tree hq, hname] at hqt
    rw [htab]
    split_ifs at hqt
    · cases hqt; simp
    · exact List.mem_cons_of_mem _ (hI.reached q t' hq hqt)
  · rw [htab] at ht'
    rcases List.mem_cons.mp ht' with rfl | ht'
    · exact h1
    · exact hI.aligned t' ht'
  · rw [htab] at ht'
    rcases List.mem_cons.mp ht' with rfl | ht'
    · exact Or.inr h2
    · exact hI.lt t' ht'
  · rw [hadd.follow_eq hI.tree hq.le, hname] at hqt
    split_ifs at hqt with hnew
    · cases hqt
      rw [presentAt_zeroed hzero] at hje
      exact absurd hje (by simp)
    · rw [hent t' (hI.reached q t' hq.le hqt) j] at hje
      split_ifs at hje with hcase
      · cases hje
        rw [hname]
        omega
      · exact hI.named q t' j e hq hqt hje

/-- **Without the present flag** the entry stays absent for the processor: the tree is not changed and
the page returned is none of its tables. The table `t` may itself be outside the tree. -/
theorem getOrCreate_junk (hI : TreeInv s.mem root tables) (ht : t ∈ tables) (hpml : physOf pml = t)
    (he : presentAt s.mem t i = none) (hc : Creates A tables s pml i tables') :
    SameTree (presentAt s.mem) (presentAt (vmmGetOrCreatePml A s pml i 0).2.mem) tableOf 3 root ∧
    TreeInv (vmmGetOrCreatePml A s pml i 0).2.mem root tables' ∧
    (vmmGetOrCreatePml A s pml i 0).1 ∈ tables' ∧
    physOf (vmmGetOrCreatePml A s pml i 0).1 = (vmmGetOrCreatePml A s pml i 0).1 ∧
    (∀ a ∈ page (vmmGetOrCreatePml A s pml i 0).1, (vmmGetOrCreatePml A s pml i 0).2.mem a = 0) ∧
    ∀ q, q.length ≤ 3 → follow (presentAt (vmmGetOrCreatePml A s pml i 0).2.mem) tableOf root q ≠
      some (vmmGetOrCreatePml A s pml i 0).1 := by
  have hf : (0 : ℕ) < 8 := by norm_num
  obtain ⟨hfresh, htab, hr⟩ := getOrCreate_absent hf hpml he hc
  have hent := presentAt_create hI hf hpml ht he hc
  have hzero := zeroed_create hI hf hpml ht he hc
  have hsame : SameTree (presentAt s.mem) (presentAt (vmmGetOrCreatePml A s pml i 0).2.mem) tableOf 3
      root := by
    intro q t' j hq hqt
    rw [hent t' (hI.reached q t' hq hqt) j]
    split_ifs with hcase h01
    · exact absurd h01 (by norm_num)
    · rw [hcase.1, hcase.2, he]
    · rfl
  have hr1 : (vmmGetOrCreatePml A s pml i 0).1 = (A.allocz s).1 := by rw [hr]
  rw [hr1, htab]
  refine ⟨hsame, (hI.same hsame).cons hfresh.aligned hfresh.lt, by simp, physOf_of_lt hfresh.lt, hzero,
    fun q hq hqt => ?_⟩
  rw [hsame.follow_eq hq] at hqt
  exact hfresh.fresh (hI.reached q _ hq hqt)

/-! ### A lawful source gives fresh pages -/

/-- `pmm_allocz(1)`, where `vmm_get_or_create_pml` calls it, does not return NULL. -/
def Served (A : PageSource σ) (s : Machine σ) (pml i : ℕ) : Prop :=
  load64 s.mem (physOf pml + 8 * i) &&& 1 = 0 → (A.allocz s).1 ≠ 0

/-- **A lawful source that is not exhausted** serves `vmm_get_or_create_pml` with a fresh page. -/
theorem creates_of_lawful {arena : Set ℕ} {Good : Machine σ → Set ℕ → Prop} (hL : Lawful A arena Good)
    (hG : Good s {t | t ∈ tables}) (hpml : physOf pml ∈ tables) (hs : Served A s pml i) :
    ∃ tables', Creates A tables s pml i tables' ∧
      Good (vmmGetOrCreatePml A s pml i f).2 {t | t ∈ tables'} := by
  unfold Creates vmmGetOrCreatePml
  by_cases h0 : load64 s.mem (physOf pml + 8 * i) &&& 1 = 0
  · obtain ⟨h1, h2, h3, h4⟩ := hL.alloc hG (hs h0)
    obtain ⟨ha, -, hlt⟩ := hL.pages (hL.handed h4 (Set.mem_insert _ _))
    simp only [if_pos h0]
    refine ⟨_, ⟨⟨ha, hlt, h1, h2, fun t ht => h3 t ht⟩, rfl⟩, ?_⟩
    have hset : {t | t ∈ (A.allocz s).1 :: tables} = insert (A.allocz s).1 {t | t ∈ tables} := by
      ext t; simp
    rw [hset]
    exact hL.write h4 fun a ha => store_entry_of_not_mem (ha _ (hL.handed hG hpml))
  · simp only [if_neg h0]
    exact ⟨tables, rfl, hG⟩

/-! ### One level down -/

/-- **One level down with the present flag**: the child is reached, no translation changes, and the trail
of every path through it grows at most by an entry with the flags. -/
theorem getOrCreate_map (hI : TreeInv s.mem root tables) (hf : f < 8) (hodd : f % 2 = 1)
    (hp : p.length < 3) (hfol : follow (presentAt s.mem) tableOf root p = some (physOf pml))
    (hc : Creates A tables s pml i tables') :
    TreeInv (vmmGetOrCreatePml A s pml i f).2.mem root tables' ∧
    follow (presentAt (vmmGetOrCreatePml A s pml i f).2.mem) tableOf root (p ++ [i]) =
      some (physOf (vmmGetOrCreatePml A s pml i f).1) ∧
    (∀ q j, q.length = 3 →
      lookup (presentAt (vmmGetOrCreatePml A s pml i f).2.mem) tableOf root q j =
        lookup (presentAt s.mem) tableOf root q j) ∧
    ∀ q, ∃ R, trail (presentAt (vmmGetOrCreatePml A s pml i f).2.mem) tableOf root (p ++ i :: q) =
      trail (presentAt s.mem) tableOf root (p ++ i :: q) ++ R ∧ ∀ e ∈ R, e % 8 = f := by
  cases he : presentAt s.mem (physOf pml) i with
  | some e =>
    obtain ⟨hr, rfl⟩ := getOrCreate_present (f := f) hI hp hfol rfl he hc
    rw [hr]
    have hfol' : follow (presentAt s.mem) tableOf root (p ++ [i]) = some (tableOf e) := by
      rw [follow_snoc hfol, he]; rfl
    refine ⟨hI, ?_, fun _ _ _ => rfl, fun _ => ⟨[], by simp, by simp⟩⟩
    rw [hI.physOf_eq hp hfol', hfol']
  | none =>
    obtain ⟨hadd, hr, hI'⟩ := getOrCreate_create hI hf hodd hp hfol rfl he hc
    have hfol' := hadd.follow_new hI.tree
    have hal := (getOrCreate_absent hf rfl he hc).1.aligned
    refine ⟨hI', ?_, fun q j hq => hadd.lookup_eq hI.tree hq, fun q => ⟨[(A.allocz s).1 + f], ?_, ?_⟩⟩
    · rw [hr, hI'.physOf_eq hp hfol', hfol']
    · obtain ⟨h1, h2⟩ := hadd.trail_eq (q := q) hI.tree
      rw [h1, h2]
    · intro e hmem
      rw [List.mem_singleton.mp hmem]
      omega

/-- Where an unmap stands after some levels: on the table at `p`, or, when the path breaks off, on a
zeroed page outside the tree. -/
def StandsAt (m : Mem) (root : ℕ) (tables : List ℕ) (p : List (Fin 512)) (pml : ℕ) : Prop :=
  follow (presentAt m) tableOf root p = some (physOf pml) ∨
  (follow (presentAt m) tableOf root p = none ∧ physOf pml ∈ tables ∧
    (∀ a ∈ page (physOf pml), m a = 0) ∧
    ∀ q, q.length ≤ 3 → follow (presentAt m) tableOf root q ≠ some (physOf pml))

theorem StandsAt.mem {m : Mem} (hI : TreeInv m root tables) (hp : p.length ≤ 3)
    (h : StandsAt m root tables p pml) : physOf pml ∈ tables := by
  rcases h with h | ⟨-, h, -⟩
  · exact hI.reached p _ hp h
  · exact h

/-- **One level down with the flags 0**: the tree stays as it is. -/
theorem getOrCreate_unmap (hI : TreeInv s.mem root tables) (hp : p.length < 3)
    (hat : StandsAt s.mem root tables p pml) (hc : Creates A tables s pml i tables') :
    TreeInv (vmmGetOrCreatePml A s pml i 0).2.mem root tables' ∧
    StandsAt (vmmGetOrCreatePml A s pml i 0).2.mem root tables' (p ++ [i])
      (vmmGetOrCreatePml A s pml i 0).1 ∧
    SameTree (presentAt s.mem) (presentAt (vmmGetOrCreatePml A s pml i 0).2.mem) tableOf 3 root := by
  have hlen : (p ++ [i]).length ≤ 3 := by simp; omega
  -- where the entry is absent the path breaks off, on the tree or outside
  have hjunk : physOf pml ∈ tables → presentAt s.mem (physOf pml) i = none →
      follow (presentAt s.mem) tableOf root (p ++ [i]) = none →
      TreeInv (vmmGetOrCreatePml A s pml i 0).2.mem root tables' ∧
      StandsAt (vmmGetOrCreatePml A s pml i 0).2.mem root tables' (p ++ [i])
        (vmmGetOrCreatePml A s pml i 0).1 ∧
      SameTree (presentAt s.mem) (presentAt (vmmGetOrCreatePml A s pml i 0).2.mem) tableOf 3 root := by
    intro ht he hnone
    obtain ⟨hsame, hI', h1, h2, h3, h4⟩ := getOrCreate_junk hI ht rfl he hc
    refine ⟨hI', Or.inr ⟨by rw [hsame.follow_eq hlen, hnone], ?_, ?_, ?_⟩, hsame⟩
    · rw [h2]; exact h1
    · rw [h2]; exact h3
    · rw [h2]; exact h4
  rcases hat with hfol | ⟨hnone, ht, hz, -⟩
  · cases he : presentAt s.mem (physOf pml) i with
    | some e =>
      obtain ⟨hr, rfl⟩ := getOrCreate_present (f := 0) hI hp hfol rfl he hc
      rw [hr]
      have hfol' : follow (presentAt s.mem) tableOf root (p ++ [i]) = some (tableOf e) := by
        rw [follow_snoc hfol, he]; rfl
      exact ⟨hI, Or.inl (by rw [hI.physOf_eq hp hfol', hfol']), fun _ _ _ _ _ => rfl⟩
    | none =>
      refine hjunk (hI.reached p _ hp.le hfol) he ?_
      rw [follow_snoc hfol, he]; rfl
  · refine hjunk ht (presentAt_zeroed hz) ?_
    rw [follow_append, hnone]; rfl

/-- Where a call with the flags `f` stands after some levels. -/
def Reaches (f : ℕ) (m : Mem) (root : ℕ) (tables : List ℕ) (p : List (Fin 512)) (pml : ℕ) : Prop :=
  (f < 8 ∧ f % 2 = 1 ∧ follow (presentAt m) tableOf root p = some (physOf pml)) ∨
  (f = 0 ∧ StandsAt m root tables p pml)

theorem Reaches.mem {m : Mem} (hI : TreeInv m root tables) (hp : p.length ≤ 3)
    (h : Reaches f m root tables p pml) : physOf pml ∈ tables := by
  rcases h with ⟨-, -, h⟩ | ⟨-, h⟩
  · exact hI.reached p _ hp h
  · exact h.mem hI hp

theorem Reaches.down (hI : TreeInv s.mem root tables) (hp : p.length < 3)
    (h : Reaches f s.mem root tables p pml) (hc : Creates A tables s pml i tables') :
    TreeInv (vmmGetOrCreatePml A s pml i f).2.mem root tables' ∧
    Reaches f (vmmGetOrCreatePml A s pml i f).2.mem root tables' (p ++ [i])
      (vmmGetOrCreatePml A s pml i f).1 := by
  rcases h with ⟨h1, h2, h3⟩ | ⟨rfl, h⟩
  · obtain ⟨hI', hfol, -⟩ := getOrCreate_map hI h1 h2 hp h3 hc
    exact ⟨hI', Or.inl ⟨h1, h2, hfol⟩⟩
  · obtain ⟨hI', hat, -⟩ := getOrCreate_unmap hI hp h hc
    exact ⟨hI', Or.inr ⟨rfl, hat⟩⟩

/-! ### The way down -/

/-- `vmm_get_or_create_pml` along a path: the table reached, and the machine. -/
def descend (A : PageSource σ) (f : ℕ) : List (Fin 512) → ℕ × Machine σ → ℕ × Machine σ
  | [], r => r
  | i :: q, r => descend A f q (vmmGetOrCreatePml A r.2 r.1 i f)

/-- No `pmm_allocz(1)` on the way down returns NULL. -/
def ServedAlong (A : PageSource σ) (f : ℕ) : List (Fin 512) → ℕ × Machine σ → Prop
  | [], _ => True
  | i :: q, r => Served A r.2 r.1 i ∧ ServedAlong A f q (vmmGetOrCreatePml A r.2 r.1 i f)

/-- The allocations on the way down are fresh; `tables'` are the pages used as tables afterwards. -/
def FreshAlong (A : PageSource σ) (f : ℕ) : List (Fin 512) → List ℕ → ℕ × Machine σ → List ℕ → Prop
  | [], tables, _, tables' => tables' = tables
  | i :: q, tables, r, tables' => ∃ tables₁, Creates A tables r.2 r.1 i tables₁ ∧
      FreshAlong A f q tables₁ (vmmGetOrCreatePml A r.2 r.1 i f) tables'

section Down
variable {q : List (Fin 512)} {r : ℕ × Machine σ}

theorem append_level : p ++ [i] ++ q = p ++ i :: q := by simp

theorem length_level {n : ℕ} (h : p.length + (i :: q).length ≤ n) :
    p.length < n ∧ (p ++ [i]).length + q.length ≤ n := by
  simp only [List.length_cons, List.length_append, List.length_nil] at h ⊢
  omega

theorem creates_length (h : Creates A tables s pml i tables') : tables'.length ≤ tables.length + 1 := by
  unfold Creates at h
  split_ifs at h
  · rw [h.2]
    simp
  · rw [h]
    omega

theorem FreshAlong.length_le (h : FreshAlong A f q tables r tables') :
    tables'.length ≤ tables.length + q.length := by
  induction q generalizing tables r with
  | nil => exact (congrArg List.length h).le
  | cons i q ih =>
    obtain ⟨T, hc, h⟩ := h
    have h1 := creates_length hc
    have h2 := ih h
    rw [List.length_cons]
    omega

/-- **Down with the present flag**: the table is reached, no translation changes, and the trail grows by
entries with the flags. -/
theorem FreshAlong.map (hf : f < 8) (hodd : f % 2 = 1) (h : FreshAlong A f q tables r tables')
    (hlen : p.length + q.length ≤ 3) (hI : TreeInv r.2.mem root tables)
    (hfol : follow (presentAt r.2.mem) tableOf root p = some (physOf r.1)) :
    TreeInv (descend A f q r).2.mem root tables' ∧
    follow (presentAt (descend A f q r).2.mem) tableOf root (p ++ q) = some (physOf (descend A f q r).1) ∧
    (∀ q' j, q'.length = 3 → lookup (presentAt (descend A f q r).2.mem) tableOf root q' j =
      lookup (presentAt r.2.mem) tableOf root q' j) ∧
    ∃ R, trail (presentAt (descend A f q r).2.mem) tableOf root (p ++ q) =
      trail (presentAt r.2.mem) tableOf root (p ++ q) ++ R ∧ ∀ e ∈ R, e % 8 = f := by
  induction q generalizing p tables r with
  | nil =>
    obtain rfl : tables' = tables := h
    exact ⟨hI, by rwa [List.append_nil], fun _ _ _ => rfl, [], (List.append_nil _).symm, by simp⟩
  | cons i q ih =>
    obtain ⟨T, hc, h⟩ := h
    obtain ⟨hp, hlen⟩ := length_level hlen
    obtain ⟨hI₁, hfol₁, hl₁, ht₁⟩ := getOrCreate_map hI hf hodd hp hfol hc
    obtain ⟨hI₂, hfol₂, hl₂, R₂, ht₂, hR₂⟩ := ih h hlen hI₁ hfol₁
    obtain ⟨R₁, ht₁, hR₁⟩ := ht₁ q
    rw [append_level] at hfol₂ ht₂
    rw [descend]
    refine ⟨hI₂, hfol₂, fun q' j hq' => (hl₂ q' j hq').trans (hl₁ q' j hq'), R₁ ++ R₂, ?_, fun e he => ?_⟩
    · rw [ht₂, ht₁, List.append_assoc]
    · rcases List.mem_append.mp he with he | he
      · exact hR₁ e he
      · exact hR₂ e he

/-- **Down with the flags 0**: the tree stays as it is. -/
theorem FreshAlong.unmap (h : FreshAlong A 0 q tables r tables') (hlen : p.length + q.length ≤ 3)
    (hI : TreeInv r.2.mem root tables) (hat : StandsAt r.2.mem root tables p r.1) :
    TreeInv (descend A 0 q r).2.mem root tables' ∧
    StandsAt (descend A 0 q r).2.mem root tables' (p ++ q) (descend A 0 q r).1 ∧
    SameTree (presentAt r.2.mem) (presentAt (descend A 0 q r).2.mem) tableOf 3 root := by
  induction q generalizing p tables r with
  | nil =>
    obtain rfl : tables' = tables := h
    exact ⟨hI, by rwa [List.append_nil], fun _ _ _ _ _ => rfl⟩
  | cons i q ih =>
    obtain ⟨T, hc, h⟩ := h
    obtain ⟨hp, hlen⟩ := length_level hlen
    obtain ⟨hI₁, hat₁, hs₁⟩ := getOrCreate_unmap hI hp hat hc
    obtain ⟨hI₂, hat₂, hs₂⟩ := ih h hlen hI₁ hat₁
    rw [append_level] at hat₂
    exact ⟨hI₂, hat₂, hs₁.trans hs₂⟩

theorem FreshAlong.reaches (h : FreshAlong A f q tables r tables') (hlen : p.length + q.length ≤ 3)
    (hI : TreeInv r.2.mem root tables) (hat : Reaches f r.2.mem root tables p r.1) :
    TreeInv (descend A f q r).2.mem root tables' ∧
    Reaches f (descend A f q r).2.mem root tables' (p ++ q) (descend A f q r).1 := by
  rcases hat with ⟨hf, hodd, hfol⟩ | ⟨rfl, hat⟩
  · obtain ⟨hI', hfol', -⟩ := h.map hf hodd hlen hI hfol
    exact ⟨hI', Or.inl ⟨hf, hodd, hfol'⟩⟩
  · obtain ⟨hI', hat', -⟩ := h.unmap hlen hI hat
    exact ⟨hI', Or.inr ⟨rfl, hat'⟩⟩

theorem level_present (hI : TreeInv s.mem root tables) (hp : p.length < 3)
    (hfol : follow (presentAt s.mem) tableOf root p = some (physOf pml))
    (ht : follow (presentAt s.mem) tableOf root (p ++ [i]) = some t) :
    Served A s pml i ∧ vmmGetOrCreatePml A s pml i f = (t, s) ∧ physOf t = t ∧
      ∀ T, Creates A tables s pml i T → T = tables := by
  have hphys := hI.physOf_eq hp ht
  rw [follow_snoc hfol, Option.map_eq_some_iff] at ht
  obtain ⟨e, he, rfl⟩ := ht
  have hodd : load64 s.mem (physOf pml + 8 * i) % 2 = 1 := by
    unfold presentAt at he
    split_ifs at he with h
    exact h
  have hn : ¬ load64 s.mem (physOf pml + 8 * i) &&& 1 = 0 := by rw [and_one_eq_zero]; simp [hodd]
  have hc : Creates A tables s pml i tables := by
    unfold Creates
    rw [if_neg hn]
  exact ⟨fun h => absurd h hn, (getOrCreate_present hI hp hfol rfl he hc).1, hphys,
    fun T hT => (getOrCreate_present (f := f) hI hp hfol rfl he hT).2⟩

/-- **Down to a table that is there**: nothing is allocated, nothing changes. -/
theorem descend_present (hI : TreeInv s.mem root tables) (hlen : p.length + q.length ≤ 3)
    (hfol : follow (presentAt s.mem) tableOf root p = some (physOf pml))
    (ht : follow (presentAt s.mem) tableOf root (p ++ q) = some t) :
    ServedAlong A f q (pml, s) ∧ (descend A f q (pml, s)).2 = s ∧ physOf (descend A f q (pml, s)).1 = t ∧
      ∀ T, FreshAlong A f q tables (pml, s) T → T = tables := by
  induction q generalizing p pml with
  | nil =>
    rw [List.append_nil, hfol] at ht
    exact ⟨trivial, rfl, Option.some.inj ht, fun _ h => h⟩
  | cons i q ih =>
    obtain ⟨hp, hlen⟩ := length_level hlen
    rw [← append_level] at ht
    obtain ⟨t', ht', -⟩ := Option.bind_eq_some_iff.mp (follow_append.symm.trans ht)
    obtain ⟨hs, heq, hphys, hc⟩ := level_present (A := A) (f := f) hI hp hfol ht'
    obtain ⟨hs', h1, h2, h3⟩ := ih hlen (by rw [hphys]; exact ht') ht
    simp only [ServedAlong, FreshAlong, descend, heq]
    refine ⟨⟨hs, hs'⟩, h1, h2, ?_⟩
    rintro T ⟨T₁, hT₁, hT⟩
    obtain rfl := hc T₁ hT₁
    exact h3 T hT

/-- **Over a lawful source that is not exhausted** the allocations on the way down are fresh. -/
theorem fresh_of_served {arena : Set ℕ} {Good : Machine σ → Set ℕ → Prop} (hL : Lawful A arena Good)
    (hlen : p.length + q.length ≤ 3) (hI : TreeInv r.2.mem root tables) (hG : Good r.2 {t | t ∈ tables})
    (hat : Reaches f r.2.mem root tables p r.1) (hs : ServedAlong A f q r) :
    ∃ tables', FreshAlong A f q tables r tables' ∧ Good (descend A f q r).2 {t | t ∈ tables'} := by
  induction q generalizing p tables r with
  | nil => exact ⟨tables, rfl, hG⟩
  | cons i q ih =>
    obtain ⟨hp, hlen⟩ := length_level hlen
    obtain ⟨T₁, hc, hG₁⟩ := creates_of_lawful (f := f) hL hG (hat.mem hI hp.le) hs.1
    obtain ⟨hI₁, hat₁⟩ := hat.down hI hp hc
    obtain ⟨T₂, hfresh, hG₂⟩ := ih hlen hI₁ hG₁ hat₁ hs.2
    exact ⟨T₂, ⟨T₁, hc, hfresh⟩, hG₂⟩

end Down

end FusionCore.Mm.VirtTree
