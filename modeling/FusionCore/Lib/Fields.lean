import FusionCore.Lib.ByteMem

/-! # Packed records in memory

A field of a packed record has a width in bytes, an offset and a value; `writeFields` assigns the
fields of a record one after the other. Fields that do not overlap are all read back, whatever their order
(`load_writeFields`), and nothing outside the record changes (`writeFields_differsOn`). -/

namespace FusionCore.Lib.Fields

open FusionCore.Lib.ByteMem

/-- A field and the value assigned to it. -/
structure Field where
  width : ℕ
  offset : ℕ
  value : ℕ
  deriving DecidableEq, Repr

/-- Assign the fields of the record at `a`, in order. -/
def writeFields (m : Mem) (a : ℕ) (fs : List Field) : Mem :=
  fs.foldl (fun m f => store m f.width (a + f.offset) f.value) m

/-- The fields do not overlap. -/
def Apart (f g : Field) : Prop := f.offset + f.width ≤ g.offset ∨ g.offset + g.width ≤ f.offset

instance (f g : Field) : Decidable (Apart f g) := by unfold Apart; infer_instance

/-- The fields `fs` at the offset `n` of a larger record. -/
def shift (n : ℕ) (fs : List Field) : List Field := fs.map fun f => { f with offset := n + f.offset }

variable {m m' : Mem} {a n w o : ℕ} {f : Field} {fs : List Field}

@[simp] theorem writeFields_nil : writeFields m a [] = m := rfl

@[simp] theorem writeFields_cons :
    writeFields m a (f :: fs) = writeFields (store m f.width (a + f.offset) f.value) a fs := rfl

/-- Nothing outside the record changes. -/
theorem writeFields_differsOn (hn : ∀ f ∈ fs, f.offset + f.width ≤ n) :
    DiffersOn (Set.Ico a (a + n)) m (writeFields m a fs) := by
  induction fs generalizing m with
  | nil => exact DiffersOn.refl _ _
  | cons f fs ih =>
    have hf := hn f (List.mem_cons_self ..)
    refine DiffersOn.trans (fun x hx => store_of_not_mem fun hc => hx ?_)
      (ih fun g hg => hn g (List.mem_cons_of_mem _ hg))
    rw [Set.mem_Ico] at hc ⊢
    omega

/-- A word that no field overlaps. -/
theorem load_writeFields_of_apart (h : ∀ f ∈ fs, o + w ≤ f.offset ∨ f.offset + f.width ≤ o) :
    load (writeFields m a fs) w (a + o) = load m w (a + o) := by
  induction fs generalizing m with
  | nil => rfl
  | cons f fs ih =>
    rw [writeFields_cons, ih fun g hg => h g (List.mem_cons_of_mem _ hg)]
    have hf := h f (List.mem_cons_self ..)
    exact load_store_of_disjoint (by omega)

/-- **Every field is read back.** -/
theorem load_writeFields (hp : fs.Pairwise Apart) (hf : f ∈ fs) :
    load (writeFields m a fs) f.width (a + f.offset) = f.value % 256 ^ f.width := by
  induction fs generalizing m with
  | nil => cases hf
  | cons g fs ih =>
    obtain ⟨hg, hp⟩ := List.pairwise_cons.mp hp
    rcases List.mem_cons.mp hf with rfl | hf
    · exact (load_writeFields_of_apart fun g hg' => hg g hg').trans (load_store_self _ _ _ _)
    · exact ih hp hf

end FusionCore.Lib.Fields
