import Mathlib.Tactic

/-! # Byte-addressed memory

A memory maps addresses to bytes. `load` and `store` read and write little-endian words of `w` bytes,
`fill` sets a range to one byte. The facts: a store is read back (`load_store_self`), a load sees only
the bytes of its range (`load_congr`), so it does not see a store or a fill elsewhere. Agreement of two
memories on a range is Mathlib's `Set.EqOn` on `Set.Ico a (a + n)`. -/

namespace FusionCore.Lib.ByteMem

/-- A byte-addressed memory. -/
abbrev Mem := ℕ → UInt8

/-- The little-endian word of `w` bytes at `a`. -/
def load (m : Mem) : ℕ → ℕ → ℕ
  | 0, _ => 0
  | w + 1, a => (m a).toNat + 256 * load m w (a + 1)

/-- Write the low `w` bytes of `v` at `a`, low byte first. -/
def store (m : Mem) (w a v : ℕ) : Mem := fun b =>
  if a ≤ b ∧ b < a + w then UInt8.ofNat (v / 256 ^ (b - a)) else m b

/-- Set the `n` bytes from `a` on to `c`. -/
def fill (m : Mem) (a n : ℕ) (c : UInt8) : Mem := fun b => if a ≤ b ∧ b < a + n then c else m b

/-- A 64-bit load. -/
def load64 (m : Mem) (a : ℕ) : ℕ := load m 8 a

/-- A 64-bit store. -/
def store64 (m : Mem) (a v : ℕ) : Mem := store m 8 a v

/-- A 16-bit load. -/
def load16 (m : Mem) (a : ℕ) : ℕ := load m 2 a

/-- A 16-bit store. -/
def store16 (m : Mem) (a v : ℕ) : Mem := store m 2 a v

theorem load_lt (m : Mem) : ∀ w a : ℕ, load m w a < 256 ^ w
  | 0, _ => by simp [load]
  | w + 1, a => by
    have h1 := load_lt m w (a + 1)
    have h2 := (m a).toNat_lt
    rw [load, pow_succ]
    omega

/-- A word is its low part and its high part. -/
theorem load_add (m : Mem) : ∀ w w' a : ℕ,
    load m (w + w') a = load m w a + 256 ^ w * load m w' (a + w)
  | 0, w', a => by simp [load]
  | w + 1, w', a => by
    rw [Nat.add_right_comm, load, load_add m w w' (a + 1), load, pow_succ']
    rw [show a + 1 + w = a + (w + 1) by omega]
    ring

/-- **A load sees only its own bytes.** -/
theorem load_congr {m m' : Mem} : ∀ {w a : ℕ}, Set.EqOn m' m (Set.Ico a (a + w)) →
    load m' w a = load m w a
  | 0, _, _ => rfl
  | w + 1, a, h => by
    have h0 : m' a = m a := h ⟨le_rfl, by omega⟩
    have h1 : load m' w (a + 1) = load m w (a + 1) :=
      load_congr fun b hb => h ⟨by have := hb.1; omega, by have := hb.2; omega⟩
    rw [load, load, h0, h1]

/-- The word whose bytes are those of `v`. -/
theorem load_eq_mod {m : Mem} : ∀ {w a v : ℕ},
    (∀ i < w, m (a + i) = UInt8.ofNat (v / 256 ^ i)) → load m w a = v % 256 ^ w
  | 0, _, v, _ => by simp [load, Nat.mod_one]
  | w + 1, a, v, h => by
    have h0 : m a = UInt8.ofNat v := by simpa using h 0 (by omega)
    have h1 : load m w (a + 1) = v / 256 % 256 ^ w := by
      refine load_eq_mod fun i hi => ?_
      rw [Nat.add_assoc, Nat.add_comm 1 i, h (i + 1) (by omega), Nat.div_div_eq_div_mul, pow_succ']
    rw [load, h0, h1, pow_succ', Nat.mod_mul]
    simp

theorem store_of_not_mem {m : Mem} {w a v b : ℕ} (h : b ∉ Set.Ico a (a + w)) :
    store m w a v b = m b := if_neg h

theorem store_of_mem {m : Mem} {w a v i : ℕ} (h : i < w) :
    store m w a v (a + i) = UInt8.ofNat (v / 256 ^ i) := by
  rw [store, if_pos ⟨by omega, by omega⟩, Nat.add_sub_cancel_left]

/-- **A store is read back**, truncated to its width. -/
theorem load_store_self (m : Mem) (w a v : ℕ) : load (store m w a v) w a = v % 256 ^ w :=
  load_eq_mod fun _ hi => store_of_mem hi

/-- **A load does not see a store elsewhere.** -/
theorem load_store_of_disjoint {m : Mem} {w a v w' a' : ℕ} (h : a + w ≤ a' ∨ a' + w' ≤ a) :
    load (store m w a v) w' a' = load m w' a' :=
  load_congr fun b hb => store_of_not_mem fun hb' => by
    have := hb.1; have := hb.2; have := hb'.1; have := hb'.2; omega

theorem load64_store64 {m : Mem} {a v : ℕ} (hv : v < 2 ^ 64) : load64 (store64 m a v) a = v :=
  (load_store_self m 8 a v).trans (Nat.mod_eq_of_lt (by norm_num at hv ⊢; exact hv))

theorem load16_store16 (m : Mem) (a v : ℕ) : load16 (store16 m a v) a = v % 2 ^ 16 :=
  (load_store_self m 2 a v).trans (by norm_num)

theorem load64_store64_of_disjoint {m : Mem} {a v a' : ℕ} (h : a + 8 ≤ a' ∨ a' + 8 ≤ a) :
    load64 (store64 m a v) a' = load64 m a' := load_store_of_disjoint h

theorem store64_of_not_mem {m : Mem} {a v b : ℕ} (h : b ∉ Set.Ico a (a + 8)) :
    store64 m a v b = m b := store_of_not_mem h

theorem load64_congr {m m' : Mem} {a : ℕ} (h : Set.EqOn m' m (Set.Ico a (a + 8))) :
    load64 m' a = load64 m a := load_congr h

theorem load64_lt (m : Mem) (a : ℕ) : load64 m a < 2 ^ 64 := by
  have := load_lt m 8 a; norm_num at this ⊢; exact this

theorem fill_of_not_mem {m : Mem} {a n b : ℕ} {c : UInt8} (h : b ∉ Set.Ico a (a + n)) :
    fill m a n c b = m b := if_neg h

theorem fill_of_mem {m : Mem} {a n b : ℕ} {c : UInt8} (h : b ∈ Set.Ico a (a + n)) :
    fill m a n c b = c := if_pos h

/-- Words of a zeroed range are `0`. -/
theorem load_eq_zero {m : Mem} : ∀ {w a : ℕ}, (∀ b ∈ Set.Ico a (a + w), m b = 0) → load m w a = 0
  | 0, _, _ => rfl
  | w + 1, a, h => by
    have h1 : load m w (a + 1) = 0 :=
      load_eq_zero fun b hb => h b ⟨by have := hb.1; omega, by have := hb.2; omega⟩
    rw [load, h a ⟨le_rfl, by omega⟩, h1]; rfl

/-- The bytes of a word that is `0` are `0`. -/
theorem byte_of_load_eq_zero {m : Mem} : ∀ {w a : ℕ}, load m w a = 0 → ∀ i < w, m (a + i) = 0
  | 0, _, _, _, hi => absurd hi (Nat.not_lt_zero _)
  | w + 1, a, h, 0, _ => by
    rw [load] at h
    exact UInt8.toNat_inj.mp (Nat.eq_zero_of_add_eq_zero_right h)
  | w + 1, a, h, i + 1, hi => by
    rw [load] at h
    have h1 : load m w (a + 1) = 0 := by omega
    rw [← Nat.add_assoc, Nat.add_right_comm]
    exact byte_of_load_eq_zero h1 i (by omega)

theorem load64_eq_zero {m : Mem} {a : ℕ} (h : ∀ b ∈ Set.Ico a (a + 8), m b = 0) :
    load64 m a = 0 := load_eq_zero h

/-! ### Where two memories differ -/

/-- The memories differ at most on `S`. -/
def DiffersOn (S : Set ℕ) (m m' : Mem) : Prop := ∀ a, a ∉ S → m' a = m a

theorem DiffersOn.refl (S : Set ℕ) (m : Mem) : DiffersOn S m m := fun _ _ => rfl

theorem DiffersOn.trans {S : Set ℕ} {m m' m'' : Mem} (h : DiffersOn S m m') (h' : DiffersOn S m' m'') :
    DiffersOn S m m'' := fun a ha => (h' a ha).trans (h a ha)

theorem DiffersOn.mono {S T : Set ℕ} {m m' : Mem} (h : DiffersOn S m m') (hs : S ⊆ T) :
    DiffersOn T m m' := fun a ha => h a fun hS => ha (hs hS)

theorem differsOn_store16 {S : Set ℕ} {m m' : Mem} {a v : ℕ} (h : DiffersOn S m m')
    (hs : Set.Ico a (a + 2) ⊆ S) : DiffersOn S m (store16 m' a v) := fun b hb =>
  (store_of_not_mem fun hc => hb (hs hc)).trans (h b hb)

theorem differsOn_store64 {S : Set ℕ} {m m' : Mem} {a v : ℕ} (h : DiffersOn S m m')
    (hs : Set.Ico a (a + 8) ⊆ S) : DiffersOn S m (store64 m' a v) := fun b hb =>
  (store64_of_not_mem fun hc => hb (hs hc)).trans (h b hb)

/-- A load outside the difference. -/
theorem DiffersOn.load {S : Set ℕ} {m m' : Mem} {w a : ℕ} (h : DiffersOn S m m')
    (hd : ∀ b ∈ S, b < a ∨ a + w ≤ b) : load m' w a = load m w a :=
  load_congr fun b hb => h b fun hS => by
    have h1 := hb.1
    have h2 := hb.2
    rcases hd b hS with h3 | h3 <;> omega

theorem DiffersOn.load64 {S : Set ℕ} {m m' : Mem} {a : ℕ} (h : DiffersOn S m m')
    (hd : ∀ b ∈ S, b < a ∨ a + 8 ≤ b) : load64 m' a = load64 m a := h.load hd

theorem DiffersOn.load16 {S : Set ℕ} {m m' : Mem} {a : ℕ} (h : DiffersOn S m m')
    (hd : ∀ b ∈ S, b < a ∨ a + 2 ≤ b) : load16 m' a = load16 m a := h.load hd

end FusionCore.Lib.ByteMem
