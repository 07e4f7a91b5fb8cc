import FusionCore.Lib.NullChain
import FusionCore.Mm.Defs

/-! # The tags of the boot protocol (`boot/boot.c`, `boot/stivale2.h`)

The loader hands over a `stivale2_struct`, which has two names of 64 bytes each and then the pointer
to the first tag. A tag begins with its identifier and the pointer to the next one, which is NULL in
the last tag. Pointers of the loader lead to memory through the identity map or the direct map.

The loop of `stivale2_get_tag` gets `fuel` and comes to `none` where it would go on. -/

namespace FusionCore.Boot.Tags

open FusionCore.Lib.ByteMem FusionCore.Lib.NullChain FusionCore.Mm.Defs

/-- `stivale2_struct->tags`. -/
def tags (m : Mem) (stivale2Struct : ℕ) : ℕ := load64 m (physOf stivale2Struct + 128)

/-- `current_tag->identifier`. -/
def identifier (m : Mem) (tag : ℕ) : ℕ := load64 m (physOf tag)

/-- `current_tag->next`. -/
def next (m : Mem) (tag : ℕ) : ℕ := load64 m (physOf tag + 8)

/-- The loop of `stivale2_get_tag`. -/
def tagLoop (m : Mem) (id : ℕ) : ℕ → ℕ → Option ℕ
  | 0, _ => none
  | fuel + 1, currentTag =>
    if currentTag = 0 then some 0
    else if identifier m currentTag = id then some currentTag
    else tagLoop m id fuel (next m currentTag)

/-- `stivale2_get_tag`. -/
def stivale2GetTag (fuel : ℕ) (m : Mem) (stivale2Struct id : ℕ) : Option ℕ :=
  tagLoop m id fuel (tags m stivale2Struct)

variable {m : Mem} {id a b fuel : ℕ} {l : List ℕ}

theorem tagLoop_path (h : Path (next m) a l b) (hl : ∀ x ∈ l, identifier m x ≠ id)
    (hf : l.length ≤ fuel) :
    tagLoop m id fuel a = tagLoop m id (fuel - l.length) b := by
  induction h generalizing fuel with
  | nil => rfl
  | @cons a b l ha _ ih =>
    obtain ⟨n, rfl⟩ : ∃ n, fuel = n + 1 := ⟨fuel - 1, by rw [List.length_cons] at hf; omega⟩
    rw [List.length_cons, Nat.add_le_add_iff_right] at hf
    rw [tagLoop, if_neg ha, if_neg (hl a (List.mem_cons_self ..)),
      ih (fun x hx => hl x (List.mem_cons_of_mem _ hx)) hf, List.length_cons, Nat.add_sub_add_right]

/-- **The tag that is found**: in a list that ends, the first one with the identifier, or NULL. -/
theorem tagLoop_chain (h : Chain (next m) a l) (hf : l.length < fuel) :
    tagLoop m id fuel a = some ((l.find? (identifier m · = id)).getD 0) := by
  induction h generalizing fuel with
  | nil =>
    obtain ⟨n, rfl⟩ : ∃ n, fuel = n + 1 := ⟨fuel - 1, by omega⟩
    rw [tagLoop, if_pos rfl]
    rfl
  | @cons a l ha _ ih =>
    obtain ⟨n, rfl⟩ : ∃ n, fuel = n + 1 := ⟨fuel - 1, by omega⟩
    rw [List.length_cons, Nat.add_lt_add_iff_right] at hf
    rw [tagLoop, if_neg ha]
    by_cases hid : identifier m a = id
    · rw [if_pos hid, List.find?_cons, decide_eq_true hid]
      rfl
    · rw [if_neg hid, ih hf, List.find?_cons, decide_eq_false hid]

/-- **The search ends** exactly at NULL or at the first tag with the identifier. -/
theorem tagLoop_eq_some_iff : tagLoop m id fuel a = some b ↔
    ∃ l, Path (next m) a l b ∧ l.length < fuel ∧ (∀ x ∈ l, identifier m x ≠ id) ∧
      (b = 0 ∨ identifier m b = id) := by
  constructor
  · intro h
    induction fuel generalizing a with
    | zero => cases h
    | succ fuel ih =>
      rw [tagLoop] at h
      split_ifs at h with h0 hid
      · obtain rfl := Option.some.inj h
        exact ⟨[], path_nil_iff.mpr h0, Nat.succ_pos _, by simp, Or.inl rfl⟩
      · obtain rfl := Option.some.inj h
        exact ⟨[], .nil, Nat.succ_pos _, by simp, Or.inr hid⟩
      · obtain ⟨l, hp, hlen, hl, hb⟩ := ih h
        refine ⟨a :: l, .cons h0 hp, Nat.succ_lt_succ hlen, fun x hx => ?_, hb⟩
        rcases List.mem_cons.mp hx with rfl | hx
        · exact hid
        · exact hl x hx
  · rintro ⟨l, hp, hlen, hl, hb⟩
    rw [tagLoop_path hp hl hlen.le]
    obtain ⟨n, hn⟩ : ∃ n, fuel - l.length = n + 1 := ⟨fuel - l.length - 1, by omega⟩
    rw [hn, tagLoop]
    by_cases h0 : b = 0
    · rw [if_pos h0, h0]
    · rw [if_neg h0, if_pos (hb.resolve_left h0)]

end FusionCore.Boot.Tags
