import Mathlib.Tactic

/-! # NULL-terminated chains of nodes

`Chain next a l`: following `next` from `a` visits exactly the nodes `l` and then `0`. The list is
determined by `a` (`chain_unique`) and depends only on the links of its own nodes (`Chain.congr`).
`Path next a l b`: following `next` from `a` visits the nodes `l` and comes to `b`. -/

namespace FusionCore.Lib.NullChain

/-- The nodes visited from `a` on by `next`, up to the NULL node `0`. -/
inductive Chain (next : ℕ → ℕ) : ℕ → List ℕ → Prop
  | nil : Chain next 0 []
  | cons {a : ℕ} {l : List ℕ} (ha : a ≠ 0) (h : Chain next (next a) l) : Chain next a (a :: l)

variable {next next' : ℕ → ℕ} {a b : ℕ} {l l' : List ℕ}

theorem chain_zero_iff : Chain next 0 l ↔ l = [] :=
  ⟨fun h => by cases h with
    | nil => rfl
    | cons ha _ => exact absurd rfl ha, fun h => h ▸ .nil⟩

theorem chain_nil_iff : Chain next a [] ↔ a = 0 :=
  ⟨fun h => by cases h; rfl, fun h => h ▸ .nil⟩

theorem chain_cons_iff : Chain next a (b :: l) ↔ a = b ∧ a ≠ 0 ∧ Chain next (next a) l :=
  ⟨fun h => by cases h with | cons ha h => exact ⟨rfl, ha, h⟩, fun ⟨e, ha, h⟩ => e ▸ .cons ha h⟩

theorem Chain.head_eq (h : Chain next a l) : a = l.headD 0 := by cases h <;> rfl

/-- A chain is empty or begins with its first node. -/
theorem Chain.start_mem (h : Chain next a l) : a = 0 ∨ a ∈ l := by
  cases h with
  | nil => exact Or.inl rfl
  | cons ha _ => exact Or.inr (List.mem_cons_self ..)

theorem Chain.ne_zero (h : Chain next a l) : ∀ x ∈ l, x ≠ 0 := by
  induction h with
  | nil => simp
  | cons ha _ ih => intro x hx; rcases List.mem_cons.mp hx with rfl | hx; exacts [ha, ih x hx]

/-- The chain depends only on the links of its own nodes. -/
theorem Chain.congr (h : Chain next a l) (hn : ∀ x ∈ l, next' x = next x) : Chain next' a l := by
  induction h with
  | nil => exact .nil
  | @cons a l ha _ ih =>
    refine .cons ha ?_
    rw [hn a (by simp)]
    exact ih fun x hx => hn x (by simp [hx])

theorem chain_unique (h : Chain next a l) (h' : Chain next a l') : l = l' := by
  induction h generalizing l' with
  | nil => exact (chain_zero_iff.mp h').symm
  | cons ha _ ih =>
    cases h' with
    | nil => exact absurd rfl ha
    | cons _ h' => rw [ih h']

/-- The chain from the node `b` on. -/
theorem Chain.drop (h : Chain next a (l ++ b :: l')) : Chain next b (b :: l') := by
  induction l generalizing a with
  | nil => exact (chain_cons_iff.mp h).1 ▸ h
  | cons x l ih => exact ih (chain_cons_iff.mp h).2.2

/-- The last node has no link. -/
theorem Chain.last_link (h : Chain next a (l ++ [b])) : next b = 0 := by
  induction l generalizing a with
  | nil =>
    obtain ⟨rfl, -, h⟩ := chain_cons_iff.mp h
    exact chain_nil_iff.mp h
  | cons x l ih => exact ih (chain_cons_iff.mp h).2.2

/-- Cut the chain after a node `c` and go on with a last node `b`: of the nodes kept, only the link of `c`
changes. -/
theorem Chain.cut {c : ℕ} {r : List ℕ} (h : Chain next a (l ++ c :: r)) (hb : b ≠ 0) (hc : next' c = b)
    (hb' : next' b = 0) (hn : ∀ x ∈ l, next' x = next x) : Chain next' a (l ++ [c, b]) := by
  induction l generalizing a with
  | nil =>
    obtain ⟨rfl, ha, -⟩ := chain_cons_iff.mp h
    refine .cons ha ?_
    rw [hc]
    refine .cons hb ?_
    rw [hb']
    exact .nil
  | cons x l ih =>
    obtain ⟨rfl, ha, h⟩ := chain_cons_iff.mp h
    refine .cons ha ?_
    rw [hn a (by simp)]
    exact ih h fun y hy => hn y (by simp [hy])

/-- Take the node after `c` out of the chain: only the link of `c` changes. -/
theorem Chain.unlink {c x : ℕ} {r : List ℕ} (h : Chain next a (l ++ c :: x :: r))
    (hc : next' c = next x) (hn : ∀ y ∈ l ++ r, next' y = next y) : Chain next' a (l ++ c :: r) := by
  induction l generalizing a with
  | nil =>
    obtain ⟨rfl, ha, h⟩ := chain_cons_iff.mp h
    obtain ⟨hx, -, h⟩ := chain_cons_iff.mp h
    refine .cons ha ?_
    rw [hc, ← hx]
    exact h.congr hn
  | cons y l ih =>
    obtain ⟨rfl, ha, h⟩ := chain_cons_iff.mp h
    refine .cons ha ?_
    rw [hn a (by simp)]
    exact ih h fun z hz => hn z (by simpa using Or.inr (List.mem_append.mp hz))

/-! ### Paths -/

/-- The nodes visited from `a` on by `next`, on the way to `b`. -/
inductive Path (next : ℕ → ℕ) : ℕ → List ℕ → ℕ → Prop
  | nil {a : ℕ} : Path next a [] a
  | cons {a b : ℕ} {l : List ℕ} (ha : a ≠ 0) (h : Path next (next a) l b) : Path next a (a :: l) b

theorem path_nil_iff : Path next a [] b ↔ a = b :=
  ⟨fun h => by cases h; rfl, fun h => h ▸ .nil⟩

theorem path_cons_iff {x : ℕ} : Path next a (x :: l) b ↔ a = x ∧ a ≠ 0 ∧ Path next (next a) l b :=
  ⟨fun h => by cases h with | cons ha h => exact ⟨rfl, ha, h⟩, fun ⟨e, ha, h⟩ => e ▸ .cons ha h⟩

/-- One node further. -/
theorem Path.snoc (h : Path next a l b) (hb : b ≠ 0) : Path next a (l ++ [b]) (next b) := by
  induction h with
  | nil => exact .cons hb .nil
  | cons ha _ ih => exact .cons ha (ih hb)

/-- The path depends only on the links of its own nodes. -/
theorem Path.congr (h : Path next a l b) (hn : ∀ x ∈ l, next' x = next x) : Path next' a l b := by
  induction h with
  | nil => exact .nil
  | @cons a b l ha _ ih =>
    refine .cons ha ?_
    rw [hn a (by simp)]
    exact ih fun x hx => hn x (by simp [hx])

/-- A path that comes to NULL is a chain. -/
theorem Path.chain (h : Path next a l b) (hb : b = 0) : Chain next a l := by
  induction h with
  | nil => exact hb ▸ .nil
  | cons ha _ ih => exact .cons ha (ih hb)

/-- A chain is a path to NULL. -/
theorem Chain.path (h : Chain next a l) : Path next a l 0 := by
  induction h with
  | nil => exact .nil
  | cons ha _ ih => exact .cons ha ih

/-- The way along a chain to one of its nodes. -/
theorem Chain.path_to {c : ℕ} {r : List ℕ} (h : Chain next a (l ++ c :: r)) : Path next a l c := by
  induction l generalizing a with
  | nil =>
    obtain ⟨rfl, -, -⟩ := chain_cons_iff.mp h
    exact .nil
  | cons x l ih =>
    obtain ⟨rfl, ha, h⟩ := chain_cons_iff.mp h
    exact .cons ha (ih h)

/-- A chain and a path of the same length visit the same nodes. -/
theorem Chain.eq_path (h : Chain next a l) (h' : Path next a l' b) (hlen : l.length = l'.length) :
    l = l' ∧ b = 0 := by
  induction h' generalizing l with
  | nil =>
    obtain rfl := List.length_eq_zero_iff.mp hlen
    exact ⟨rfl, chain_nil_iff.mp h⟩
  | cons ha _ ih =>
    cases h with
    | nil => exact absurd rfl ha
    | cons _ h =>
      obtain ⟨rfl, hb⟩ := ih h (Nat.succ.inj hlen)
      exact ⟨rfl, hb⟩

end FusionCore.Lib.NullChain
