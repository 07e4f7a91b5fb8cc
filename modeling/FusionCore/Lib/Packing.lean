import Mathlib.Tactic

/-! # Disjoint sets of numbers below a bound

Pairwise disjoint finite sets of numbers below `N` have at most `N` elements together. -/

namespace FusionCore.Lib.Packing

/-- The union of a list of finite sets. -/
def unions (l : List (Finset ℕ)) : Finset ℕ := l.foldr (· ∪ ·) ∅

theorem mem_unions {l : List (Finset ℕ)} {x : ℕ} : x ∈ unions l ↔ ∃ s ∈ l, x ∈ s := by
  induction l with
  | nil => simp [unions]
  | cons s l ih =>
    have hc : unions (s :: l) = s ∪ unions l := rfl
    rw [hc, Finset.mem_union, ih]
    simp

theorem sum_card_eq {l : List (Finset ℕ)} (h : l.Pairwise Disjoint) :
    (l.map Finset.card).sum = (unions l).card := by
  induction l with
  | nil => rfl
  | cons s l ih =>
    obtain ⟨hs, hl⟩ := List.pairwise_cons.mp h
    have hd : Disjoint s (unions l) := by
      refine Finset.disjoint_left.mpr fun x hx hx' => ?_
      obtain ⟨t, ht, hxt⟩ := mem_unions.mp hx'
      exact Finset.disjoint_left.mp (hs t ht) hx hxt
    have hc : unions (s :: l) = s ∪ unions l := rfl
    rw [List.map_cons, List.sum_cons, ih hl, hc, Finset.card_union_of_disjoint hd]

/-- **Disjoint sets below `N` have at most `N` elements together.** -/
theorem sum_card_le {l : List (Finset ℕ)} {N : ℕ} (h : l.Pairwise Disjoint)
    (hN : ∀ s ∈ l, ∀ x ∈ s, x < N) : (l.map Finset.card).sum ≤ N := by
  rw [sum_card_eq h, ← Finset.card_range N]
  refine Finset.card_le_card fun x hx => ?_
  obtain ⟨s, hs, hxs⟩ := mem_unions.mp hx
  exact Finset.mem_range.mpr (hN s hs x hxs)

end FusionCore.Lib.Packing
