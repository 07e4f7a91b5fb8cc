import Mathlib.Tactic

/-! # Walks by steps read at the position

From a position `a` below a bound `b` a walk goes on by `len q` at each position `q` it comes to,
until it is at `b` or beyond. `walk` lists the positions with some fuel. The walk ends exactly if no
position it comes to has the step 0 (`ends_iff`), and then with one more unit of fuel than there are
places to the bound. -/

namespace FusionCore.Lib.Walk

variable (len : ℕ → ℕ) (b : ℕ)

/-- The positions from `q` on. -/
def walk : ℕ → ℕ → Option (List ℕ)
  | 0, _ => none
  | fuel + 1, q => if q < b then (walk fuel (q + len q)).map (q :: ·) else some []

/-- A position the walk from `a` comes to. -/
inductive Reached (a : ℕ) : ℕ → Prop
  | start : Reached a a
  | next {q : ℕ} (h : Reached a q) (hq : q < b) : Reached a (q + len q)

variable {len : ℕ → ℕ} {b : ℕ} {a q fuel : ℕ}

theorem walk_of_lt (h : q < b) : walk len b (fuel + 1) q = (walk len b fuel (q + len q)).map (q :: ·) :=
  if_pos h

theorem walk_of_le (h : b ≤ q) : walk len b (fuel + 1) q = some [] := if_neg (by omega)

theorem Reached.le (h : Reached len b a q) : a ≤ q := by
  induction h with
  | start => exact le_rfl
  | next _ _ ih => omega

/-- A reached position is the first one or reached from the second one. -/
theorem reached_iff : Reached len b a q ↔ q = a ∨ (a < b ∧ Reached len b (a + len a) q) := by
  constructor
  · intro h
    induction h with
    | start => exact Or.inl rfl
    | next _ hq ih =>
      rcases ih with rfl | ⟨ha, h⟩
      · exact Or.inr ⟨hq, .start⟩
      · exact Or.inr ⟨ha, h.next hq⟩
  · rintro (rfl | ⟨ha, h⟩)
    · exact .start
    · induction h with
      | start => exact Reached.start.next ha
      | next _ hq ih => exact ih.next hq

/-- With a step 0 on the way no fuel is enough. -/
theorem walk_none (hq : q < b) (h0 : len q = 0) : ∀ (fuel : ℕ) {a : ℕ}, Reached len b a q →
    walk len b fuel a = none
  | 0, _, _ => rfl
  | fuel + 1, a, h => by
    have hnext : a < b → Reached len b (a + len a) q → walk len b (fuel + 1) a = none := by
      intro ha h'
      rw [walk_of_lt ha, walk_none hq h0 fuel h']
      rfl
    rcases reached_iff.mp h with rfl | ⟨ha, h'⟩
    · refine hnext hq ?_
      rw [h0]
      exact .start
    · exact hnext ha h'

/-- Without one, every fuel that exceeds the distance to the bound. -/
theorem exists_walk (h : ∀ q, Reached len b a q → q < b → len q ≠ 0) :
    ∃ ps, ∀ fuel, b - a < fuel → walk len b fuel a = some ps := by
  induction hk : b - a using Nat.strong_induction_on generalizing a with
  | _ k ih =>
    by_cases ha : a < b
    · have hpos := h a .start ha
      obtain ⟨ps, hps⟩ := ih (b - (a + len a)) (by omega)
        (fun q hq => h q (reached_iff.mpr (Or.inr ⟨ha, hq⟩))) rfl
      refine ⟨a :: ps, fun fuel hf => ?_⟩
      obtain ⟨fuel, rfl⟩ := Nat.exists_eq_succ_of_ne_zero (by omega : fuel ≠ 0)
      rw [walk_of_lt ha, hps fuel (by omega)]
      rfl
    · refine ⟨[], fun fuel hf => ?_⟩
      obtain ⟨fuel, rfl⟩ := Nat.exists_eq_succ_of_ne_zero (by omega : fuel ≠ 0)
      exact walk_of_le (by omega)

/-- **The walk ends** exactly if no reached position has the step 0. -/
theorem ends_iff : (∃ fuel, walk len b fuel a ≠ none) ↔ ∀ q, Reached len b a q → q < b → len q ≠ 0 := by
  constructor
  · rintro ⟨fuel, hf⟩ q hq hb h0
    exact hf (walk_none hb h0 fuel hq)
  · intro h
    obtain ⟨ps, hps⟩ := exists_walk h
    refine ⟨b - a + 1, ?_⟩
    rw [hps _ (by omega)]
    simp

/-- **The positions listed** are those reached below the bound. -/
theorem mem_walk : ∀ {fuel a : ℕ} {ps : List ℕ}, walk len b fuel a = some ps → ∀ q,
    (q ∈ ps ↔ Reached len b a q ∧ q < b)
  | fuel + 1, a, ps, h, q => by
    by_cases ha : a < b
    · rw [walk_of_lt ha, Option.map_eq_some_iff] at h
      obtain ⟨ps', h1, rfl⟩ := h
      rw [List.mem_cons, mem_walk h1 q, reached_iff (a := a)]
      constructor
      · rintro (rfl | ⟨h2, h3⟩)
        · exact ⟨Or.inl rfl, ha⟩
        · exact ⟨Or.inr ⟨ha, h2⟩, h3⟩
      · rintro ⟨h2 | ⟨-, h2⟩, h3⟩
        · exact Or.inl h2
        · exact Or.inr ⟨h2, h3⟩
    · rw [walk_of_le (by omega)] at h
      obtain rfl := Option.some.inj h
      refine ⟨fun h => absurd h (by simp), fun ⟨h1, h2⟩ => ?_⟩
      have := h1.le
      omega

/-- More fuel changes nothing. -/
theorem walk_mono : ∀ {fuel a : ℕ} {ps : List ℕ}, walk len b fuel a = some ps →
    ∀ {fuel' : ℕ}, fuel ≤ fuel' →
    walk len b fuel' a = some ps
  | fuel + 1, a, ps, h, fuel', hle => by
    obtain ⟨fuel', rfl⟩ := Nat.exists_eq_succ_of_ne_zero (by omega : fuel' ≠ 0)
    by_cases ha : a < b
    · rw [walk_of_lt ha, Option.map_eq_some_iff] at h
      obtain ⟨ps', h1, rfl⟩ := h
      rw [walk_of_lt ha, walk_mono h1 (by omega)]
      rfl
    · rw [walk_of_le (by omega)] at h ⊢
      exact h

/-- The positions do not depend on the fuel. -/
theorem walk_unique {fuel' : ℕ} {ps ps' : List ℕ} (h : walk len b fuel a = some ps)
    (h' : walk len b fuel' a = some ps') : ps = ps' := by
  rcases Nat.le_total fuel fuel' with hle | hle
  · exact Option.some.inj ((walk_mono h hle).symm.trans h')
  · exact Option.some.inj (h.symm.trans (walk_mono h' hle))

end FusionCore.Lib.Walk
