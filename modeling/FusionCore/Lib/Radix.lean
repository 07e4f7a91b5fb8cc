import Mathlib.Tactic

/-! # Radix trees of tables

A table `t` has at index `i` an entry `ent t i` or none, and an entry `e` names the table `child e`.
`follow r p` is the table reached from `r` along the path `p`, `trail r p` the entries read on the way, up
to the first that is missing, and `lookup r p i` the entry `i` of the table at `p`.

`Tree d r`: up to depth `d` no table is reached on two paths. Such a tree is changed in three ways, and
for each the new `follow` and `lookup` are given: a change outside the tree (`SameTree.lookup_eq`), a
fresh empty table hung into it (`AddChild.lookup_eq`), and a change of one entry at depth `d`
(`lookup_setLeaf`). -/

namespace FusionCore.Lib.Radix

variable {T I E : Type}

section Defs
variable (ent : T → I → Option E) (child : E → T)

/-- The table reached along a path. -/
def follow : T → List I → Option T
  | t, [] => some t
  | t, i :: p => (ent t i).bind fun e => follow (child e) p

/-- The entries read along a path, up to the first that is missing. -/
def trail : T → List I → List E
  | _, [] => []
  | t, i :: p =>
    match ent t i with
    | none => []
    | some e => e :: trail (child e) p

/-- The entry `i` of the table at `p`. -/
def lookup (r : T) (p : List I) (i : I) : Option E := (follow ent child r p).bind fun t => ent t i

/-- No table is reached on two paths of length up to `d`. -/
def Tree (d : ℕ) (r : T) : Prop := ∀ p q t, p.length ≤ d → q.length ≤ d →
  follow ent child r p = some t → follow ent child r q = some t → p = q

end Defs

variable {ent ent' : T → I → Option E} {child : E → T} {r t t₀ c : T} {p q p₀ : List I} {i i₀ : I}
  {e₀ : E} {d : ℕ}

theorem follow_append : follow ent child t (p ++ q) =
    (follow ent child t p).bind fun t' => follow ent child t' q := by
  induction p generalizing t with
  | nil => rfl
  | cons i p ih =>
    simp only [List.cons_append, follow]
    cases ent t i with
    | none => rfl
    | some e => exact ih

theorem follow_snoc (h : follow ent child r p = some t) :
    follow ent child r (p ++ [i]) = (ent t i).map child := by
  rw [follow_append, h]
  cases he : ent t i <;> simp [follow, he]

theorem trail_append (h : follow ent child r p = some t) :
    trail ent child r (p ++ q) = trail ent child r p ++ trail ent child t q := by
  induction p generalizing r with
  | nil => cases h; rfl
  | cons j p ih =>
    simp only [List.cons_append, follow, trail] at h ⊢
    cases hc : ent r j with
    | none => rw [hc] at h; exact absurd h (by simp)
    | some e =>
      rw [hc] at h
      simp [ih h]

theorem length_trail (h : follow ent child r p = some t) : (trail ent child r p).length = p.length := by
  induction p generalizing r with
  | nil => rfl
  | cons j p ih =>
    simp only [follow, trail] at h ⊢
    cases hc : ent r j with
    | none => rw [hc] at h; exact absurd h (by simp)
    | some e =>
      rw [hc] at h
      simp [ih h]

/-- **A path sees only the entries it reads.** -/
theorem follow_congr (h : ∀ q i t, q ++ [i] <+: p → follow ent child r q = some t →
    ent' t i = ent t i) : follow ent' child r p = follow ent child r p := by
  induction p generalizing r with
  | nil => rfl
  | cons j p ih =>
    have hj : ent' r j = ent r j := h [] j r (by simp) rfl
    simp only [follow, hj]
    cases hc : ent r j with
    | none => rfl
    | some e =>
      refine ih fun q i t hq ht => h (j :: q) i t ?_ ?_
      · simpa using hq
      · simp [follow, hc, ht]

theorem trail_congr (h : ∀ q i t, q ++ [i] <+: p → follow ent child r q = some t →
    ent' t i = ent t i) : trail ent' child r p = trail ent child r p := by
  induction p generalizing r with
  | nil => rfl
  | cons j p ih =>
    have hj : ent' r j = ent r j := h [] j r (by simp) rfl
    simp only [trail, hj]
    cases hc : ent r j with
    | none => rfl
    | some e =>
      simp only [List.cons.injEq, true_and]
      refine ih fun q i t hq ht => h (j :: q) i t ?_ ?_
      · simpa using hq
      · simp [follow, hc, ht]

/-! ### A change outside the tree -/

/-- The entries of the tables of the tree are the same. -/
def SameTree (ent ent' : T → I → Option E) (child : E → T) (d : ℕ) (r : T) : Prop :=
  ∀ p t i, p.length ≤ d → follow ent child r p = some t → ent' t i = ent t i

section SameTree
variable (h : SameTree ent ent' child d r)
include h

theorem SameTree.follow_eq (hp : p.length ≤ d) : follow ent' child r p = follow ent child r p :=
  follow_congr fun q i t hq ht => h q t i (by have := hq.length_le; simp at this; omega) ht

theorem SameTree.lookup_eq (hp : p.length ≤ d) : lookup ent' child r p i = lookup ent child r p i := by
  unfold lookup
  rw [h.follow_eq hp]
  cases hf : follow ent child r p with
  | none => rfl
  | some t => exact h p t i hp hf

theorem SameTree.trans {ent'' : T → I → Option E} (h' : SameTree ent' ent'' child d r) :
    SameTree ent ent'' child d r := fun p t i hp ht =>
  (h' p t i hp ((h.follow_eq hp).trans ht)).trans (h p t i hp ht)

theorem SameTree.tree (ht : Tree ent child d r) : Tree ent' child d r := fun p q t hp hq h1 h2 =>
  ht p q t hp hq (by rwa [h.follow_eq hp] at h1) (by rwa [h.follow_eq hq] at h2)

end SameTree

/-! ### A change of one entry -/

/-- The entry `i₀` of `t₀` is the only entry of the tree that changes. -/
def SameBut (ent ent' : T → I → Option E) (child : E → T) (d : ℕ) (r t₀ : T) (i₀ : I) : Prop :=
  ∀ p t i, p.length ≤ d → follow ent child r p = some t → (t ≠ t₀ ∨ i ≠ i₀) → ent' t i = ent t i

section SameBut
variable (ht : Tree ent child d r) (h : SameBut ent ent' child d r t₀ i₀)
  (h0 : follow ent child r p₀ = some t₀) (hd : p₀.length ≤ d)
include ht h h0 hd

/-- A path that does not go through the changed entry reads none that changes. -/
theorem SameBut.reads (hp : p.length ≤ d + 1) (hn : ¬ p₀ ++ [i₀] <+: p) :
    ∀ q i t, q ++ [i] <+: p → follow ent child r q = some t → ent' t i = ent t i := by
  intro q i t hq hqt
  have hlen : q.length ≤ d := by have := hq.length_le; simp at this; omega
  refine h q t i hlen hqt ?_
  by_contra hne
  push Not at hne
  obtain ⟨rfl, rfl⟩ := hne
  exact hn (ht q p₀ t hlen hd hqt h0 ▸ hq)

theorem SameBut.follow_table : follow ent' child r p₀ = some t₀ := by
  rw [follow_congr (h.reads ht h0 hd (by omega) fun hpre => ?_), h0]
  have := hpre.length_le
  simp at this

end SameBut

/-- **A fresh empty table hung into the tree** by the entry `e₀` at index `i₀` of the table at `p₀`. -/
structure AddChild (ent ent' : T → I → Option E) (child : E → T) (d : ℕ) (r : T) (p₀ : List I) (t₀ : T)
    (i₀ : I) (e₀ : E) : Prop where
  same : SameBut ent ent' child d r t₀ i₀
  reached : follow ent child r p₀ = some t₀
  depth : p₀.length < d
  absent : ent t₀ i₀ = none
  hung : ent' t₀ i₀ = some e₀
  fresh : ∀ p, p.length ≤ d → follow ent child r p ≠ some (child e₀)
  empty : ∀ i, ent' (child e₀) i = none

section AddChild
variable (ht : Tree ent child d r) (h : AddChild ent ent' child d r p₀ t₀ i₀ e₀)
include ht h

theorem AddChild.follow_new : follow ent' child r (p₀ ++ [i₀]) = some (child e₀) := by
  rw [follow_snoc (h.same.follow_table ht h.reached h.depth.le), h.hung]
  rfl

/-- The paths through the new entry are the only ones that change. -/
theorem AddChild.follow_eq [DecidableEq I] (hp : p.length ≤ d) :
    follow ent' child r p = if p = p₀ ++ [i₀] then some (child e₀) else follow ent child r p := by
  by_cases hpre : p₀ ++ [i₀] <+: p
  · obtain ⟨q, rfl⟩ := hpre
    rw [follow_append, h.follow_new ht]
    cases q with
    | nil => simp [follow]
    | cons j q =>
      rw [if_neg (by simp), follow_append, follow_snoc h.reached, h.absent]
      simp [follow, h.empty]
  · have hne : p ≠ p₀ ++ [i₀] := fun he => hpre (he ▸ List.prefix_rfl)
    rw [if_neg hne, follow_congr (h.same.reads ht h.reached h.depth.le (by omega) hpre)]

theorem AddChild.tree [DecidableEq I] : Tree ent' child d r := by
  intro p q t hp hq h1 h2
  rw [h.follow_eq ht hp] at h1
  rw [h.follow_eq ht hq] at h2
  split_ifs at h1 h2 with e1 e2 e2
  · rw [e1, e2]
  · cases h1; exact absurd h2 (h.fresh q hq)
  · cases h2; exact absurd h1 (h.fresh p hp)
  · exact ht p q t hp hq h1 h2

/-- **Hanging in an empty table changes no lookup.** -/
theorem AddChild.lookup_eq [DecidableEq I] (hp : p.length = d) :
    lookup ent' child r p i = lookup ent child r p i := by
  unfold lookup
  rw [h.follow_eq ht hp.le]
  split_ifs with he
  · have hn : follow ent child r p = none := by rw [he, follow_snoc h.reached, h.absent]; rfl
    rw [hn]
    exact h.empty i
  · cases hf : follow ent child r p with
    | none => rfl
    | some t =>
      have hne : t ≠ t₀ := by
        rintro rfl
        have h1 := ht p p₀ t hp.le h.depth.le hf h.reached
        have h2 := h.depth
        rw [← h1] at h2
        omega
      exact h.same p t i hp.le hf (Or.inl hne)

/-- The trail through the new entry: the old one stopped before it, the new one stops after it. -/
theorem AddChild.trail_eq : trail ent child r (p₀ ++ i₀ :: q) = trail ent child r p₀ ∧
    trail ent' child r (p₀ ++ i₀ :: q) = trail ent child r p₀ ++ [e₀] := by
  have htab := h.same.follow_table ht h.reached h.depth.le
  have hpre : trail ent' child r p₀ = trail ent child r p₀ :=
    trail_congr (h.same.reads ht h.reached h.depth.le (by have := h.depth; omega) fun hp => by
      have := hp.length_le
      simp at this)
  rw [trail_append h.reached, trail_append htab, hpre]
  constructor
  · simp [trail, h.absent]
  · simp only [trail, h.hung]
    cases q with
    | nil => rfl
    | cons j q => simp [trail, h.empty]

end AddChild

section SetLeaf
variable (ht : Tree ent child d r) (h : SameBut ent ent' child d r t₀ i₀)
  (h0 : follow ent child r p₀ = some t₀) (hd : p₀.length = d)
include ht h h0 hd

theorem follow_setLeaf (hp : p.length ≤ d) : follow ent' child r p = follow ent child r p :=
  follow_congr (h.reads ht h0 hd.le (by omega) fun hpre => by
    have := hpre.length_le
    simp at this
    omega)

theorem trail_setLeaf (hp : p.length ≤ d) : trail ent' child r p = trail ent child r p :=
  trail_congr (h.reads ht h0 hd.le (by omega) fun hpre => by
    have := hpre.length_le
    simp at this
    omega)

theorem tree_setLeaf : Tree ent' child d r := fun p q t hp hq h1 h2 =>
  ht p q t hp hq (by rwa [follow_setLeaf ht h h0 hd hp] at h1)
    (by rwa [follow_setLeaf ht h h0 hd hq] at h2)

/-- **Changing an entry at depth `d` changes one lookup.** -/
theorem lookup_setLeaf [DecidableEq I] (hp : p.length ≤ d) :
    lookup ent' child r p i = if p = p₀ ∧ i = i₀ then ent' t₀ i₀ else lookup ent child r p i := by
  unfold lookup
  rw [follow_setLeaf ht h h0 hd hp]
  by_cases he : p = p₀ ∧ i = i₀
  · rw [if_pos he, he.1, he.2, h0]; rfl
  · rw [if_neg he]
    cases hf : follow ent child r p with
    | none => rfl
    | some t =>
      have hne : t ≠ t₀ ∨ i ≠ i₀ := by
        by_contra hn
        push Not at hn
        obtain ⟨rfl, rfl⟩ := hn
        exact he ⟨ht p p₀ t hp hd.le hf h0, rfl⟩
      exact h p t i hp hf hne

end SetLeaf

end FusionCore.Lib.Radix
