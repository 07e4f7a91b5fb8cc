import FusionCore.Lib.ByteMem

/-! # A stack of words in byte memory

The stack grows down: `push` moves the pointer by eight and stores, with addresses modulo `2 ^ 64`.
`words m sp n` are the `n` words from `sp` up. On an aligned stack, pushing a list puts it, reversed, in
front of the words that were there (`words_pushAll`). -/

namespace FusionCore.Lib.Stack

open FusionCore.Lib.ByteMem

/-- The word at an address. -/
def word (m : Mem) (a : BitVec 64) : BitVec 64 := BitVec.ofNat 64 (load64 m a.toNat)

/-- The `n` words from `sp` up. -/
def words (m : Mem) (sp : BitVec 64) (n : ℕ) : List (BitVec 64) :=
  (List.range n).map fun k => word m (sp + BitVec.ofNat 64 (8 * k))

/-- Memory and stack pointer. -/
structure StackMem where
  mem : Mem
  sp : BitVec 64

/-- Push one word. -/
def StackMem.push (s : StackMem) (w : BitVec 64) : StackMem :=
  ⟨store64 s.mem (s.sp - 8#64).toNat w.toNat, s.sp - 8#64⟩

/-- Push the words of a list, the first one first. -/
def StackMem.pushAll (s : StackMem) (ws : List (BitVec 64)) : StackMem := ws.foldl StackMem.push s

/-- Stack pointers are multiples of eight. -/
def Aligned (sp : BitVec 64) : Prop := sp.toNat % 8 = 0

variable {m : Mem} {s : StackMem} {sp a w : BitVec 64} {n k : ℕ} {ws : List (BitVec 64)}

theorem length_words (m : Mem) (sp : BitVec 64) (n : ℕ) : (words m sp n).length = n := by
  simp [words]

theorem words_succ : words m sp (n + 1) = word m sp :: words m (sp + 8#64) n := by
  simp only [words, List.range_succ_eq_map, List.map_cons, List.map_map, Function.comp_def]
  refine congrArg₂ List.cons (congrArg (word m) (BitVec.add_zero sp)) ?_
  refine List.map_congr_left fun k _ => congrArg (word m) ?_
  refine BitVec.eq_of_toNat_eq ?_
  simp only [BitVec.toNat_add, BitVec.toNat_ofNat, Nat.succ_eq_add_one]
  omega

theorem words_add (sp : BitVec 64) (n k : ℕ) :
    words m sp (n + k) = words m sp n ++ words m (sp + BitVec.ofNat 64 (8 * n)) k := by
  induction n generalizing sp with
  | zero => simp [words]
  | succ n ih =>
    rw [show n + 1 + k = (n + k) + 1 by omega, words_succ, words_succ, ih, List.cons_append]
    congr 3
    refine BitVec.eq_of_toNat_eq ?_
    simp only [BitVec.toNat_add, BitVec.toNat_ofNat]
    omega

theorem Aligned.add (h : Aligned sp) (k : ℕ) : Aligned (sp + BitVec.ofNat 64 (8 * k)) := by
  unfold Aligned at *
  simp only [BitVec.toNat_add, BitVec.toNat_ofNat]
  omega

theorem Aligned.sub (h : Aligned sp) : Aligned (sp - 8#64) := by
  unfold Aligned at *
  simp only [BitVec.toNat_sub, BitVec.toNat_ofNat]
  omega

/-! ### Pushing -/

theorem word_push_self (s : StackMem) (w : BitVec 64) : word (s.push w).mem (s.push w).sp = w := by
  show BitVec.ofNat 64 (load64 (store64 s.mem (s.sp - 8#64).toNat w.toNat) (s.sp - 8#64).toNat) = w
  rw [load64_store64 w.isLt, BitVec.ofNat_toNat, BitVec.setWidth_eq]

theorem word_push_of_ne (hs : Aligned s.sp) (ha : Aligned a) (hne : a ≠ s.sp - 8#64) :
    word (s.push w).mem a = word s.mem a := by
  have h1 := hs.sub
  have h2 : a.toNat ≠ (s.sp - 8#64).toNat := fun h => hne (BitVec.eq_of_toNat_eq h)
  unfold Aligned at ha h1
  show BitVec.ofNat 64 (load64 (store64 s.mem (s.sp - 8#64).toNat w.toNat) a.toNat) = _
  rw [load64_store64_of_disjoint (by omega), word]

theorem words_push (hs : Aligned s.sp) (hn : 8 * (n + 1) ≤ 2 ^ 64) :
    words (s.push w).mem (s.push w).sp (n + 1) = w :: words s.mem s.sp n := by
  have hsp : (s.push w).sp + 8#64 = s.sp := BitVec.sub_add_cancel _ _
  rw [words_succ, word_push_self, hsp]
  refine congrArg (List.cons w) (List.map_congr_left fun k hk => ?_)
  refine word_push_of_ne hs (hs.add k) fun h => ?_
  have hlt := List.mem_range.mp hk
  have h2 := congrArg BitVec.toNat h
  simp only [BitVec.toNat_add, BitVec.toNat_sub, BitVec.toNat_ofNat] at h2
  omega

/-- **What a list pushes.** -/
theorem words_pushAll (ws : List (BitVec 64)) (hs : Aligned s.sp) (hn : 8 * (ws.length + n) ≤ 2 ^ 64) :
    Aligned (s.pushAll ws).sp ∧
    words (s.pushAll ws).mem (s.pushAll ws).sp (ws.length + n) = ws.reverse ++ words s.mem s.sp n := by
  induction ws generalizing s n with
  | nil => exact ⟨hs, by simp [StackMem.pushAll]⟩
  | cons w ws ih =>
    rw [List.length_cons] at hn
    obtain ⟨h1, h2⟩ := ih (s := s.push w) (n := n + 1) hs.sub (by omega)
    refine ⟨h1, ?_⟩
    rw [List.length_cons, show ws.length + 1 + n = ws.length + (n + 1) by omega]
    show words ((s.push w).pushAll ws).mem ((s.push w).pushAll ws).sp _ = _
    rw [h2, words_push hs (by omega), List.reverse_cons, List.append_assoc]
    rfl

end FusionCore.Lib.Stack
