import Mathlib.Tactic

/-! # Runs of labelled transition systems

A run from `s` is a list of labels with a state after each; `step s o s'` says that `o` can take `s` to
`s'`. What every step preserves holds at the end of every run (`Run.invariant`); a relation to an abstract
state that every step carries along is carried by every run (`Run.simulates`). -/

namespace FusionCore.Lib.Runs

variable {S O A : Type}

/-- `Run step s os s'`: the labels `os`, in this order, lead from `s` to `s'`. -/
inductive Run (step : S → O → S → Prop) (s : S) : List O → S → Prop
  | nil : Run step s [] s
  | snoc {os : List O} {o : O} {s₁ s₂ : S} (h : Run step s os s₁) (hs : step s₁ o s₂) :
      Run step s (os ++ [o]) s₂

variable {step step' : S → O → S → Prop} {s s' : S} {os : List O}

/-- **Invariant rule.** -/
theorem Run.invariant {I : S → Prop} (h : Run step s os s') (h0 : I s)
    (hstep : ∀ s₁ o s₂, I s₁ → step s₁ o s₂ → I s₂) : I s' := by
  induction h with
  | nil => exact h0
  | snoc _ hs ih => exact hstep _ _ _ ih hs

/-- **Simulation rule**: the abstract state follows the labels by `next`. -/
theorem Run.simulates {R : S → A → Prop} {next : A → O → A} {a : A} (h : Run step s os s')
    (h0 : R s a) (hstep : ∀ s₁ a₁ o s₂, R s₁ a₁ → step s₁ o s₂ → R s₂ (next a₁ o)) :
    R s' (os.foldl next a) := by
  induction h with
  | nil => exact h0
  | snoc _ hs ih =>
    rw [List.foldl_append]
    exact hstep _ _ _ _ ih hs

/-- One run after another. -/
theorem Run.append {os' : List O} {s₁ : S} (h : Run step s os s₁) (h' : Run step s₁ os' s') :
    Run step s (os ++ os') s' := by
  induction h' with
  | nil => rwa [List.append_nil]
  | snoc _ hs' ih =>
    rw [← List.append_assoc]
    exact .snoc ih hs'

/-- A run can also be built from its first step. -/
theorem Run.cons {o : O} {s₁ : S} (hs : step s o s₁) (h : Run step s₁ os s') :
    Run step s (o :: os) s' := (Run.snoc .nil hs).append h

/-- A run of no step, and of one. -/
theorem run_nil_iff : Run step s [] s' ↔ s' = s := by
  refine ⟨fun h => ?_, fun h => h ▸ .nil⟩
  generalize hos : ([] : List O) = os at h
  cases h with
  | nil => rfl
  | snoc h hs => simp at hos

theorem run_singleton_iff {o : O} : Run step s [o] s' ↔ step s o s' := by
  refine ⟨fun h => ?_, fun h => .cons h .nil⟩
  generalize hos : [o] = os at h
  cases h with
  | nil => simp at hos
  | @snoc os o' s₁ _ h hs =>
    cases os with
    | cons x os => simp at hos
    | nil =>
      obtain rfl : o = o' := by simpa using hos
      rw [run_nil_iff.mp h] at hs
      exact hs

/-- What holds of the labels of a run holds at each of its steps. -/
theorem Run.restrict {P : O → Prop} (h : Run step s os s') (hP : ∀ o ∈ os, P o) :
    Run (fun s₁ o s₂ => step s₁ o s₂ ∧ P o) s os s' := by
  induction h with
  | nil => exact .nil
  | snoc _ hs ih =>
    exact .snoc (ih fun o ho => hP o (List.mem_append_left _ ho)) ⟨hs, hP _ (by simp)⟩

theorem Run.mono (h : Run step s os s') (hm : ∀ s₁ o s₂, step s₁ o s₂ → step' s₁ o s₂) :
    Run step' s os s' := by
  induction h with
  | nil => exact .nil
  | snoc _ hs ih => exact .snoc ih (hm _ _ _ hs)

end FusionCore.Lib.Runs
