import Mathlib.Tactic

/-! # Fair schedules

A system of actors: `step l s` is the state after the actor `l` has taken its turn. A schedule says whose
turn it is at every time, and is `Fair` when every actor gets its turn again and again. `after` is
the state at a time.

What every turn preserves holds at every time (`after_invariant`). A goal is reached on every fair
schedule if some rank never grows before it is reached, and in every state one actor, who stays the
same as long as the rank does, makes it smaller (`eventually_of_rank`). -/

namespace FusionCore.Lib.Schedule

variable {S L : Type}

/-- The state at a time. -/
def after (step : L → S → S) (s : S) (σ : ℕ → L) : ℕ → S
  | 0 => s
  | n + 1 => step (σ n) (after step s σ n)

/-- Every actor gets its turn again and again. -/
def Fair (σ : ℕ → L) : Prop := ∀ l n, ∃ m, n ≤ m ∧ σ m = l

variable {step : L → S → S} {s : S} {σ : ℕ → L}

/-- **Invariant rule.** -/
theorem after_invariant {I : S → Prop} (h0 : I s) (hstep : ∀ l s, I s → I (step l s)) (n : ℕ) :
    I (after step s σ n) := by
  induction n with
  | zero => exact h0
  | succ n ih => exact hstep _ _ ih

/-- What every turn preserves holds from then on. -/
theorem after_stable {P : S → Prop} {n : ℕ} (h : P (after step s σ n)) (hstep : ∀ l s, P s → P (step l s))
    {m : ℕ} (hm : n ≤ m) : P (after step s σ m) := by
  induction hm with
  | refl => exact h
  | step _ ih => exact hstep _ _ ih

variable {I Done : S → Prop} {rank : S → ℕ} {helper : S → L}

/-- Until the goal is reached or the rank falls, the helper stays the same. -/
theorem wait_helper (h0 : ∀ n, I (after step s σ n))
    (hle : ∀ l s, I s → ¬ Done s → Done (step l s) ∨ rank (step l s) < rank s ∨
      rank (step l s) = rank s ∧ helper (step l s) = helper s) (n d : ℕ) :
    (∃ m, n ≤ m ∧ (Done (after step s σ m) ∨ rank (after step s σ m) < rank (after step s σ n))) ∨
      ¬ Done (after step s σ (n + d)) ∧ rank (after step s σ (n + d)) = rank (after step s σ n) ∧
        helper (after step s σ (n + d)) = helper (after step s σ n) := by
  induction d with
  | zero =>
    by_cases hd : Done (after step s σ n)
    · exact Or.inl ⟨n, le_rfl, Or.inl hd⟩
    · exact Or.inr ⟨hd, rfl, rfl⟩
  | succ d ih =>
    rcases ih with ih | ⟨hd, hr, hh⟩
    · exact Or.inl ih
    · by_cases hd' : Done (after step s σ (n + (d + 1)))
      · exact Or.inl ⟨_, by omega, Or.inl hd'⟩
      · rcases hle (σ (n + d)) _ (h0 (n + d)) hd with h | h | ⟨h1, h2⟩
        · exact absurd h hd'
        · exact Or.inl ⟨n + (d + 1), by omega, Or.inr (lt_of_lt_of_eq h hr)⟩
        · exact Or.inr ⟨hd', h1.trans hr, h2.trans hh⟩

variable (Done rank helper) in
/-- **Progress rule.** -/
theorem eventually_of_rank (hf : Fair σ) (h0 : I s) (hI : ∀ l s, I s → I (step l s))
    (hle : ∀ l s, I s → ¬ Done s → Done (step l s) ∨ rank (step l s) < rank s ∨
      rank (step l s) = rank s ∧ helper (step l s) = helper s)
    (hlt : ∀ s, I s → ¬ Done s → Done (step (helper s) s) ∨ rank (step (helper s) s) < rank s) (n : ℕ) :
    ∃ m, n ≤ m ∧ Done (after step s σ m) := by
  have hinv : ∀ n, I (after step s σ n) := after_invariant h0 hI
  induction hr : rank (after step s σ n) using Nat.strong_induction_on generalizing n with
  | _ r ih =>
    have next : ∀ m, n ≤ m →
        (Done (after step s σ m) ∨ rank (after step s σ m) < rank (after step s σ n)) →
        ∃ m, n ≤ m ∧ Done (after step s σ m) := by
      intro m hm h
      rcases h with h | h
      · exact ⟨m, hm, h⟩
      · obtain ⟨m', hm', hd⟩ := ih _ (lt_of_lt_of_eq h hr) m rfl
        exact ⟨m', le_trans hm hm', hd⟩
    -- the helper's next turn
    obtain ⟨k, hk, hturn⟩ := hf (helper (after step s σ n)) n
    obtain ⟨d, rfl⟩ := Nat.exists_eq_add_of_le hk
    rcases wait_helper hinv hle n d with ⟨m, hm, h⟩ | ⟨hd, hr', hh⟩
    · exact next m hm h
    · have h := hlt _ (hinv (n + d)) hd
      rw [hh, ← hturn] at h
      refine next (n + d + 1) (by omega) (h.imp_right fun h => ?_)
      exact lt_of_lt_of_eq h hr'

end FusionCore.Lib.Schedule
