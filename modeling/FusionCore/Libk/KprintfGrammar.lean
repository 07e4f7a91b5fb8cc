import FusionCore.Libk.KprintfText

/-! # The formats `_vsnprintf` accepts (`libk/kprintf/kprintf.c`)

A format is a sequence of `Item`s: a character other than `%`, or a `%` with a specification `Spec`
(flags, width, precision, length) and the letter of a conversion. Every field is read as far as it
goes, so `Spec.Ends` says that no field could go on into what comes after it; under this condition
the reading of a specification gives its fields (`readSpec_chars`), and every format is the items it
is read as, up to a last directive that is cut off (`exists_items`).

`render` gives the text of items over arguments: the fields of each directive and the text of its
conversion. The loop puts out exactly this text (`vsnprintfLoop_items`), and a format that ends inside a
directive makes it step past the terminator (`vsnprintfLoop_cut`). So the call returns if and only if the
format is a sequence of complete items and the arguments are there (`vsnprintf_ok_iff`). -/

namespace FusionCore.Libk.Kprintf

open FusionCore.Lib.ByteMem

/-! ### Specifications -/

/-- A flag character. -/
inductive Flag
  | zero
  | minus
  | plus
  | space
  | hash
  deriving DecidableEq, Repr

def Flag.char : Flag → UInt8
  | .zero => ch '0'
  | .minus => ch '-'
  | .plus => ch '+'
  | .space => ch ' '
  | .hash => ch '#'

def Flag.set (flags : Flags) : Flag → Flags
  | .zero => { flags with zeropad := true }
  | .minus => { flags with left := true }
  | .plus => { flags with plus := true }
  | .space => { flags with space := true }
  | .hash => { flags with hash := true }

/-- A character that continues the flags. -/
def isFlag (c : UInt8) : Bool := c = ch '0' ∨ c = ch '-' ∨ c = ch '+' ∨ c = ch ' ' ∨ c = ch '#'

/-- A width, or what stands after the dot of a precision. -/
inductive Count
  | none
  | star
  | num (ds : List (Fin 10))
  deriving DecidableEq, Repr

/-- The character of a decimal digit. -/
def digit (d : Fin 10) : UInt8 := UInt8.ofNat (48 + d.val)

def Count.chars : Count → List UInt8
  | .none => []
  | .star => [ch '*']
  | .num ds => ds.map digit

/-- What holds of a next character is decided at that character, not over all bytes. -/
instance decidableNext {p : UInt8 → Prop} [DecidablePred p] (next : Option UInt8) :
    Decidable (∀ c ∈ next, p c) :=
  Option.decidableForallMem next

/-- The count does not go on into the next character. -/
def Count.Ends : Count → Option UInt8 → Prop
  | .none, next => ∀ c ∈ next, isDigit c = false ∧ c ≠ ch '*'
  | .star, _ => True
  | .num ds, next => ds ≠ [] ∧ ∀ c ∈ next, isDigit c = false

instance : (k : Count) → (next : Option UInt8) → Decidable (k.Ends next)
  | .none, next => inferInstanceAs (Decidable (∀ c ∈ next, isDigit c = false ∧ c ≠ ch '*'))
  | .star, _ => isTrue trivial
  | .num ds, next => inferInstanceAs (Decidable (ds ≠ [] ∧ ∀ c ∈ next, isDigit c = false))

/-- The value of the digits, as an `unsigned int`. -/
def value (ds : List (Fin 10)) (i : ℕ) : ℕ := ds.foldl (fun i d => (i * 10 + d.val) % 2 ^ 32) i

/-- A precision: none, or a dot with a count. -/
def precChars : Option Count → List UInt8
  | .none => []
  | .some k => ch '.' :: k.chars

def precEnds : Option Count → Option UInt8 → Prop
  | .none, next => ∀ c ∈ next, c ≠ ch '.'
  | .some k, next => k.Ends next

instance : (k : Option Count) → (next : Option UInt8) → Decidable (precEnds k next)
  | .none, next => inferInstanceAs (Decidable (∀ c ∈ next, c ≠ ch '.'))
  | .some k, next => inferInstanceAs (Decidable (k.Ends next))

/-- A length field. -/
inductive Length
  | none
  | l
  | ll
  | h
  | hh
  | t
  | j
  | z
  deriving DecidableEq, Repr

def Length.chars : Length → List UInt8
  | .none => []
  | .l => [ch 'l']
  | .ll => [ch 'l', ch 'l']
  | .h => [ch 'h']
  | .hh => [ch 'h', ch 'h']
  | .t => [ch 't']
  | .j => [ch 'j']
  | .z => [ch 'z']

def Length.set (flags : Flags) : Length → Flags
  | .none => flags
  | .l => { flags with long := true }
  | .ll => { flags with long := true, longLong := true }
  | .h => { flags with short := true }
  | .hh => { flags with short := true, char := true }
  | .t | .j | .z => { flags with long := true }

/-- The length does not go on into the next character. -/
def Length.Ends : Length → Option UInt8 → Prop
  | .none, next => ∀ c ∈ next, c ≠ ch 'l' ∧ c ≠ ch 'h' ∧ c ≠ ch 't' ∧ c ≠ ch 'j' ∧ c ≠ ch 'z'
  | .l, next => ∀ c ∈ next, c ≠ ch 'l'
  | .h, next => ∀ c ∈ next, c ≠ ch 'h'
  | _, _ => True

instance : (k : Length) → (next : Option UInt8) → Decidable (k.Ends next)
  | .none, next => inferInstanceAs (Decidable
      (∀ c ∈ next, c ≠ ch 'l' ∧ c ≠ ch 'h' ∧ c ≠ ch 't' ∧ c ≠ ch 'j' ∧ c ≠ ch 'z'))
  | .l, next => inferInstanceAs (Decidable (∀ c ∈ next, c ≠ ch 'l'))
  | .h, next => inferInstanceAs (Decidable (∀ c ∈ next, c ≠ ch 'h'))
  | .ll, _ => isTrue trivial
  | .hh, _ => isTrue trivial
  | .t, _ => isTrue trivial
  | .j, _ => isTrue trivial
  | .z, _ => isTrue trivial

/-- A directive between its `%` and the letter of its conversion. -/
structure Spec where
  flags : List Flag := []
  width : Count := .none
  prec : Option Count := .none
  length : Length := .none
  deriving DecidableEq, Repr

namespace Spec

def chars (x : Spec) : List UInt8 :=
  x.flags.map Flag.char ++ (x.width.chars ++ (precChars x.prec ++ x.length.chars))

/-- No field goes on into what comes after it; `next` comes after the specification. -/
structure Ends (x : Spec) (next : Option UInt8) : Prop where
  flags : ∀ c ∈ (x.width.chars ++ (precChars x.prec ++ x.length.chars)).head?.or next, isFlag c = false
  width : x.width.Ends ((precChars x.prec ++ x.length.chars).head?.or next)
  prec : precEnds x.prec (x.length.chars.head?.or next)
  length : x.length.Ends next

instance (x : Spec) (next : Option UInt8) : Decidable (x.Ends next) :=
  decidable_of_iff
    ((∀ c ∈ (x.width.chars ++ (precChars x.prec ++ x.length.chars)).head?.or next, isFlag c = false) ∧
      x.width.Ends ((precChars x.prec ++ x.length.chars).head?.or next) ∧
      precEnds x.prec (x.length.chars.head?.or next) ∧ x.length.Ends next)
    ⟨fun ⟨h1, h2, h3, h4⟩ => ⟨h1, h2, h3, h4⟩, fun h => ⟨h.flags, h.width, h.prec, h.length⟩⟩

end Spec

/-- The width, from an argument for `*`. -/
def Count.asWidth (f : Fields) : Count → Except Err Fields
  | .none => .ok f
  | .star => do
    let (a, va) ← vaArg f.va
    if a.int < 0 then .ok { f with flags := { f.flags with left := true }, width := a.int.natAbs, va }
    else .ok { f with width := a.int.toNat, va }
  | .num ds => .ok { f with width := value ds 0 }

/-- The precision, from an argument for `*`. -/
def precFields (f : Fields) : Option Count → Except Err Fields
  | .none => .ok f
  | .some k =>
    let f := { f with flags := { f.flags with precision := true } }
    match k with
    | .none => .ok f
    | .star => do
      let (a, va) ← vaArg f.va
      .ok { f with precision := a.int.toNat, va }
    | .num ds => .ok { f with precision := value ds 0 }

/-- The fields of a specification that is followed by `format`. -/
def Spec.fields (x : Spec) (format : List UInt8) (va : List Arg) : Except Err Fields := do
  let f ← x.width.asWidth { flags := x.flags.foldl Flag.set {}, format, va }
  let f ← precFields f x.prec
  .ok { f with flags := x.length.set f.flags }

/-- What `directive` reads before it comes to the conversion. -/
def readSpec (format : List UInt8) (va : List Arg) : Except Err Fields := do
  let (flags, format) := flagsField {} format
  let f ← widthField { flags, format, va }
  let f ← precisionField f
  let (flags, format) := lengthField f.flags f.format
  .ok { f with flags, format }

theorem directive_eq {σ : Type} (out : Out σ) (maxlen : ℕ) (format : List UInt8)
    (va : List Arg) (p : ℕ × σ) :
    directive out maxlen format va p = (readSpec format va).bind fun f => specifier out maxlen f p := by
  unfold directive readSpec
  simp only [bind, Except.bind]
  cases widthField { flags := (flagsField {} format).1, format := (flagsField {} format).2, va } with
  | error e => rfl
  | ok f =>
    simp only
    cases precisionField f with
    | error e => rfl
    | ok f => rfl

/-! ### Reading a field -/

variable {rest : List UInt8} {next : Option UInt8}

theorem head_append (l : List UInt8) : (l ++ rest).head? = l.head?.or rest.head? := List.head?_append

theorem flagsField_char (fs : Flags) (k : Flag) (l : List UInt8) :
    flagsField fs (k.char :: l) = flagsField (k.set fs) l := by
  cases k <;> rfl

theorem flagsField_stop (fs : Flags) (h : ∀ c ∈ rest.head?, isFlag c = false) :
    flagsField fs rest = (fs, rest) := by
  cases rest with
  | nil => rfl
  | cons c rest =>
    have hc := h c rfl
    simp only [isFlag, decide_eq_false_iff_not, not_or] at hc
    obtain ⟨h0, h1, h2, h3, h4⟩ := hc
    simp only [flagsField, h0, h1, h2, h3, h4, if_false]

theorem flagsField_chars (fl : List Flag) (fs : Flags) (h : ∀ c ∈ rest.head?, isFlag c = false) :
    flagsField fs (fl.map Flag.char ++ rest) = (fl.foldl Flag.set fs, rest) := by
  induction fl generalizing fs with
  | nil => exact flagsField_stop fs h
  | cons k fl ih =>
    rw [List.map_cons, List.cons_append, flagsField_char, ih]
    rfl

theorem exists_flag {c : UInt8} (h : isFlag c = true) : ∃ k : Flag, k.char = c := by
  simp only [isFlag, decide_eq_true_eq] at h
  rcases h with rfl | rfl | rfl | rfl | rfl
  exacts [⟨.zero, rfl⟩, ⟨.minus, rfl⟩, ⟨.plus, rfl⟩, ⟨.space, rfl⟩, ⟨.hash, rfl⟩]

theorem exists_flags (l : List UInt8) :
    ∃ (fl : List Flag) (rest : List UInt8), l = fl.map Flag.char ++ rest ∧
    ∀ c ∈ rest.head?, isFlag c = false := by
  induction l with
  | nil => exact ⟨[], [], rfl, by simp⟩
  | cons c l ih =>
    by_cases hc : isFlag c = true
    · obtain ⟨k, rfl⟩ := exists_flag hc
      obtain ⟨fl, rest, rfl, hr⟩ := ih
      exact ⟨k :: fl, rest, rfl, hr⟩
    · refine ⟨[], c :: l, rfl, fun c' h => ?_⟩
      rw [← Option.some.inj h]
      exact Bool.eq_false_iff.mpr hc

theorem isDigit_digit (d : Fin 10) : isDigit (digit d) = true := by revert d; decide

theorem digit_toNat (d : Fin 10) : (digit d).toNat - 48 = d.val := by revert d; decide

theorem exists_digit {c : UInt8} (h : isDigit c = true) : ∃ d : Fin 10, digit d = c := by
  simp only [isDigit, Bool.and_eq_true, decide_eq_true_eq, UInt8.le_iff_toNat_le] at h
  have h48 : 48 ≤ c.toNat := h.1
  have h57 : c.toNat ≤ 57 := h.2
  refine ⟨⟨c.toNat - 48, by omega⟩, ?_⟩
  rw [digit, Nat.add_sub_cancel' h48, UInt8.ofNat_toNat]

theorem atoi_digit (i : ℕ) (d : Fin 10) (l : List UInt8) :
    atoi i (digit d :: l) = atoi ((i * 10 + d.val) % 2 ^ 32) l := by
  rw [atoi, if_pos (isDigit_digit d), digit_toNat]

theorem atoi_stop (i : ℕ) (h : ∀ c ∈ rest.head?, isDigit c = false) : atoi i rest = (i, rest) := by
  cases rest with
  | nil => rfl
  | cons c rest => rw [atoi, if_neg (by rw [h c rfl]; exact Bool.false_ne_true)]

theorem atoi_chars (ds : List (Fin 10)) (i : ℕ) (h : ∀ c ∈ rest.head?, isDigit c = false) :
    atoi i (ds.map digit ++ rest) = (value ds i, rest) := by
  induction ds generalizing i with
  | nil => exact atoi_stop i h
  | cons d ds ih =>
    rw [List.map_cons, List.cons_append, atoi_digit, ih]
    rfl

theorem exists_digits (l : List UInt8) :
    ∃ (ds : List (Fin 10)) (rest : List UInt8), l = ds.map digit ++ rest ∧
    ∀ c ∈ rest.head?, isDigit c = false := by
  induction l with
  | nil => exact ⟨[], [], rfl, by simp⟩
  | cons c l ih =>
    by_cases hc : isDigit c = true
    · obtain ⟨d, rfl⟩ := exists_digit hc
      obtain ⟨ds, rest, rfl, hr⟩ := ih
      exact ⟨d :: ds, rest, rfl, hr⟩
    · refine ⟨[], c :: l, rfl, fun c' h => ?_⟩
      rw [← Option.some.inj h]
      exact Bool.eq_false_iff.mpr hc

theorem exists_count (l : List UInt8) : ∃ (k : Count) (rest : List UInt8), l = k.chars ++ rest ∧
    k.Ends rest.head? := by
  obtain ⟨ds, rest, rfl, hr⟩ := exists_digits l
  cases ds with
  | cons d ds => exact ⟨.num (d :: ds), rest, rfl, List.cons_ne_nil _ _, hr⟩
  | nil =>
    cases rest with
    | nil => exact ⟨.none, [], rfl, by simp [Count.Ends]⟩
    | cons c rest =>
      by_cases hc : c = ch '*'
      · exact ⟨.star, rest, by rw [hc]; rfl, trivial⟩
      · refine ⟨.none, c :: rest, rfl, fun c' h => ?_⟩
        obtain rfl : c = c' := Option.some.inj h
        exact ⟨hr c rfl, hc⟩

theorem widthField_chars (k : Count) (f : Fields) (h : k.Ends rest.head?) :
    widthField { f with format := k.chars ++ rest } = k.asWidth { f with format := rest } := by
  cases k with
  | none =>
    cases rest with
    | nil => rfl
    | cons c rest =>
      obtain ⟨hd, hs⟩ := h c rfl
      simp only [Count.chars, List.nil_append, widthField, hd, hs, if_false, Bool.false_eq_true]
      rfl
  | star => rfl
  | num ds =>
    obtain ⟨hne, hr⟩ := h
    cases ds with
    | nil => exact absurd rfl hne
    | cons d ds =>
      have ha := atoi_chars (d :: ds) 0 hr
      rw [List.map_cons, List.cons_append] at ha
      simp only [Count.chars, List.map_cons, List.cons_append, widthField, isDigit_digit, if_true, ha]
      rfl

theorem precisionField_chars (k : Option Count) (f : Fields) (h : precEnds k rest.head?) :
    precisionField { f with format := precChars k ++ rest } = precFields { f with format := rest } k := by
  cases k with
  | none =>
    cases rest with
    | nil => rfl
    | cons c rest =>
      have hc : c ≠ ch '.' := h c rfl
      simp only [precChars, List.nil_append, precisionField, hc, if_false]
      rfl
  | some k =>
    cases k with
    | none =>
      cases rest with
      | nil => rfl
      | cons c rest =>
        obtain ⟨hd, hs⟩ := h c rfl
        simp only [precChars, Count.chars, List.cons_append, List.nil_append, precisionField,
          if_true, hd, hs, if_false, Bool.false_eq_true]
        rfl
    | star => rfl
    | num ds =>
      obtain ⟨hne, hr⟩ := h
      cases ds with
      | nil => exact absurd rfl hne
      | cons d ds =>
        have ha := atoi_chars (d :: ds) 0 hr
        rw [List.map_cons, List.cons_append] at ha
        simp only [precChars, Count.chars, List.map_cons, List.cons_append, precisionField, isDigit_digit,
          if_true, ha]
        rfl

theorem exists_prec (l : List UInt8) :
    ∃ (k : Option Count) (rest : List UInt8), l = precChars k ++ rest ∧ precEnds k rest.head? := by
  cases l with
  | nil => exact ⟨none, [], rfl, by simp [precEnds]⟩
  | cons c l =>
    by_cases hc : c = ch '.'
    · obtain ⟨k, rest, rfl, hk⟩ := exists_count l
      exact ⟨some k, rest, by rw [hc]; rfl, hk⟩
    · refine ⟨none, c :: l, rfl, fun c' h => ?_⟩
      rwa [← Option.some.inj h]

theorem lengthField_chars (k : Length) (fs : Flags) (h : k.Ends rest.head?) :
    lengthField fs (k.chars ++ rest) = (k.set fs, rest) := by
  cases k with
  | none =>
    cases rest with
    | nil => rfl
    | cons c rest =>
      obtain ⟨h1, h2, h3, h4, h5⟩ := h c rfl
      simp only [Length.chars, List.nil_append, lengthField, h1, h2, h3, h4, h5, if_false, or_self]
      rfl
  | l =>
    cases rest with
    | nil => rfl
    | cons c rest =>
      have hc : c ≠ ch 'l' := h c rfl
      simp only [Length.chars, List.cons_append, List.nil_append, lengthField, hc, if_false, if_true]
      rfl
  | h =>
    cases rest with
    | nil => rfl
    | cons c rest =>
      have hc : c ≠ ch 'h' := h c rfl
      have hl : ch 'h' ≠ ch 'l' := by decide
      simp only [Length.chars, List.cons_append, List.nil_append, lengthField, hc, hl, if_false, if_true]
      rfl
  | _ => rfl

theorem exists_length (l : List UInt8) :
    ∃ (k : Length) (rest : List UInt8), l = k.chars ++ rest ∧ k.Ends rest.head? := by
  cases l with
  | nil => exact ⟨.none, [], rfl, by simp [Length.Ends]⟩
  | cons c l =>
    by_cases hl : c = ch 'l'
    · subst hl
      by_cases h : l.head? = some (ch 'l')
      · obtain ⟨l', rfl⟩ := List.head?_eq_some_iff.mp h
        exact ⟨.ll, l', rfl, trivial⟩
      · exact ⟨.l, l, rfl, fun c hc e => h (by rw [hc, e])⟩
    · by_cases hh : c = ch 'h'
      · subst hh
        by_cases h : l.head? = some (ch 'h')
        · obtain ⟨l', rfl⟩ := List.head?_eq_some_iff.mp h
          exact ⟨.hh, l', rfl, trivial⟩
        · exact ⟨.h, l, rfl, fun c hc e => h (by rw [hc, e])⟩
      · by_cases ht : c = ch 't'
        · exact ⟨.t, l, by rw [ht]; rfl, trivial⟩
        · by_cases hj : c = ch 'j'
          · exact ⟨.j, l, by rw [hj]; rfl, trivial⟩
          · by_cases hz : c = ch 'z'
            · exact ⟨.z, l, by rw [hz]; rfl, trivial⟩
            · refine ⟨.none, c :: l, rfl, fun c' h => ?_⟩
              obtain rfl : c = c' := Option.some.inj h
              exact ⟨hl, hh, ht, hj, hz⟩

/-! ### Reading a specification -/

theorem asWidth_format (k : Count) (f : Fields) (l : List UInt8) :
    k.asWidth { f with format := l } = (k.asWidth f).map fun f => { f with format := l } := by
  cases k with
  | none => rfl
  | num ds => rfl
  | star =>
    simp only [Count.asWidth, bind, Except.bind]
    cases vaArg f.va with
    | error e => rfl
    | ok r =>
      simp only
      split_ifs <;> rfl

theorem precFields_format (k : Option Count) (f : Fields) (l : List UInt8) :
    precFields { f with format := l } k = (precFields f k).map fun f => { f with format := l } := by
  cases k with
  | none => rfl
  | some k =>
    cases k with
    | none => rfl
    | num ds => rfl
    | star =>
      simp only [precFields, bind, Except.bind]
      cases vaArg f.va with
      | error e => rfl
      | ok r => rfl

theorem fields_format (x : Spec) (l : List UInt8) (va : List Arg) :
    x.fields l va = (x.fields [] va).map fun f => { f with format := l } := by
  let f₀ : Fields := { flags := x.flags.foldl Flag.set {}, format := [], va }
  have hw : x.width.asWidth { f₀ with format := l } =
      (x.width.asWidth f₀).map fun f => { f with format := l } :=
    asWidth_format x.width f₀ l
  unfold Spec.fields
  simp only [bind, Except.bind]
  rw [hw]
  cases x.width.asWidth f₀ with
  | error e => rfl
  | ok f =>
    simp only [Except.map]
    rw [precFields_format]
    cases precFields f x.prec with
    | error e => rfl
    | ok f => rfl

/-- **A specification is read as its fields.** -/
theorem readSpec_chars (x : Spec) (va : List Arg) (h : x.Ends rest.head?) :
    readSpec (x.chars ++ rest) va = x.fields rest va := by
  have h1 : ∀ c ∈ (x.width.chars ++ (precChars x.prec ++ (x.length.chars ++ rest))).head?,
      isFlag c = false := by
    intro c hc
    refine h.flags c ?_
    rwa [← head_append, List.append_assoc, List.append_assoc]
  have h2 : x.width.Ends (precChars x.prec ++ (x.length.chars ++ rest)).head? := by
    rw [← List.append_assoc, head_append]
    exact h.width
  have h3 : precEnds x.prec (x.length.chars ++ rest).head? := by
    rw [head_append]
    exact h.prec
  have hchars : x.chars ++ rest =
      x.flags.map Flag.char ++ (x.width.chars ++ (precChars x.prec ++ (x.length.chars ++ rest))) := by
    simp [Spec.chars]
  -- the width and the precision, at the text where each is read
  let f₀ : Fields := { flags := x.flags.foldl Flag.set {}, format := [], va }
  have hw : ∀ l, x.width.asWidth { f₀ with format := l } =
      (x.width.asWidth f₀).map fun f => { f with format := l } :=
    asWidth_format x.width f₀
  rw [fields_format]
  unfold readSpec Spec.fields
  rw [hchars, flagsField_chars _ _ h1]
  simp only [bind, Except.bind]
  rw [widthField_chars x.width f₀ h2, hw (precChars x.prec ++ (x.length.chars ++ rest))]
  cases x.width.asWidth f₀ with
  | error e => rfl
  | ok f =>
    simp only [Except.map]
    rw [precisionField_chars x.prec f h3, precFields_format x.prec f (x.length.chars ++ rest)]
    cases precFields f x.prec with
    | error e => rfl
    | ok f =>
      simp only [Except.map]
      rw [lengthField_chars x.length f.flags h.length]

/-- Every text begins with a specification that does not go on. -/
theorem exists_spec (l : List UInt8) : ∃ (x : Spec) (rest : List UInt8), l = x.chars ++ rest ∧
    x.Ends rest.head? := by
  obtain ⟨fl, l, rfl, h1⟩ := exists_flags l
  obtain ⟨w, l, rfl, h2⟩ := exists_count l
  obtain ⟨k, l, rfl, h3⟩ := exists_prec l
  obtain ⟨n, rest, rfl, h4⟩ := exists_length l
  refine ⟨⟨fl, w, k, n⟩, rest, by simp [Spec.chars], ?_, ?_, ?_, h4⟩
  · rwa [← head_append, List.append_assoc, List.append_assoc]
  · rwa [← head_append, List.append_assoc]
  · rwa [← head_append]

/-! ### Items -/

/-- A piece of a format: a plain character, or a directive with the letter of its conversion. -/
inductive Item
  | lit (c : UInt8)
  | dir (x : Spec) (c : UInt8)
  deriving DecidableEq, Repr

def Item.chars : Item → List UInt8
  | .lit c => [c]
  | .dir x c => ch '%' :: (x.chars ++ [c])

/-- The format of the items. -/
def formatOf (is : List Item) : List UInt8 := is.flatMap Item.chars

/-- The item is read as what it is. -/
def Item.WF : Item → Prop
  | .lit c => c ≠ ch '%'
  | .dir x c => x.Ends (some c)

instance : (i : Item) → Decidable i.WF
  | .lit c => inferInstanceAs (Decidable (c ≠ ch '%'))
  | .dir x c => inferInstanceAs (Decidable (x.Ends (some c)))

/-- The text of the items, and the arguments they leave. -/
def render : List Item → List Arg → Except Err (List UInt8 × List Arg)
  | [], va => .ok ([], va)
  | .lit c :: is, va => do
    let (t, va) ← render is va
    .ok (c :: t, va)
  | .dir x c :: is, va => do
    let f ← x.fields [] va
    let (t, va) ← convText c f
    let (t', va) ← render is va
    .ok (t ++ t', va)

/-- What is left of a format after its items: nothing, or a directive without its letter. -/
inductive Tail : List UInt8 → Prop
  | done : Tail []
  | cut (x : Spec) (h : x.Ends none) : Tail (ch '%' :: x.chars)

/-- **Every format is a sequence of items, up to a last directive that is cut off.** -/
theorem exists_items (format : List UInt8) :
    ∃ is rest, (∀ i ∈ is, i.WF) ∧ Tail rest ∧ format = formatOf is ++ rest := by
  induction hn : format.length using Nat.strong_induction_on generalizing format with
  | _ n ih =>
    cases format with
    | nil => exact ⟨[], [], by simp, .done, rfl⟩
    | cons c format =>
      by_cases hc : c = ch '%'
      · obtain ⟨x, rest, rfl, hx⟩ := exists_spec format
        cases rest with
        | nil => exact ⟨[], _, by simp, .cut x hx, by simp [formatOf, hc]⟩
        | cons c' rest =>
          obtain ⟨is, tail, hw, ht, rfl⟩ := ih rest.length (by simp at hn; omega) rest rfl
          refine ⟨.dir x c' :: is, tail, ?_, ht, by simp [formatOf, Item.chars, hc]⟩
          intro i hi
          rcases List.mem_cons.mp hi with rfl | hi
          · exact hx
          · exact hw i hi
      · obtain ⟨is, tail, hw, ht, rfl⟩ := ih format.length (by simp at hn; omega) format rfl
        refine ⟨.lit c :: is, tail, ?_, ht, by simp [formatOf, Item.chars]⟩
        intro i hi
        rcases List.mem_cons.mp hi with rfl | hi
        · exact hc
        · exact hw i hi

/-! ### The loop over the items -/

section
variable {σ : Type} (out : Out σ) (maxlen : ℕ)

theorem convText_format (c : UInt8) (f : Fields) (l : List UInt8) :
    convText c { f with format := l } = convText c f := rfl

theorem directive_chars (x : Spec) (c : UInt8) (format : List UInt8) (va : List Arg) (p : ℕ × σ)
    (h : x.Ends (some c)) :
    directive out maxlen (x.chars ++ c :: format) va p =
      ((x.fields [] va).bind (convText c)).map fun r => (format, r.2, puts out maxlen r.1 p) := by
  rw [directive_eq, readSpec_chars x va (show x.Ends (c :: format).head? from h), fields_format]
  cases x.fields [] va with
  | error e => rfl
  | ok f =>
    simp only [Except.map, Except.bind]
    rw [specifier_eq out maxlen { f with format := c :: format } rfl p, convText_format]
    rfl

theorem directive_cut (x : Spec) (va : List Arg) (p : ℕ × σ) (h : x.Ends none) :
    ∃ e, directive out maxlen x.chars va p = .error e := by
  have hr := readSpec_chars x va (show x.Ends ([] : List UInt8).head? from h)
  rw [List.append_nil] at hr
  rw [directive_eq, hr, fields_format]
  cases x.fields [] va with
  | error e => exact ⟨e, rfl⟩
  | ok f => exact ⟨.overrun, rfl⟩

/-- **The loop puts out the text of the items**, and goes on with what is left of the format. -/
theorem vsnprintfLoop_items {is : List Item} (hw : ∀ i ∈ is, i.WF) (rest : List UInt8) {k : ℕ}
    (hk : (formatOf is ++ rest).length ≤ k) (va : List Arg) (p : ℕ × σ) :
    ∃ k', rest.length ≤ k' ∧ vsnprintfLoop out maxlen k (formatOf is ++ rest) va p =
      (render is va).bind fun r => vsnprintfLoop out maxlen k' rest r.2 (puts out maxlen r.1 p) := by
  induction is generalizing k va p with
  | nil => exact ⟨k, hk, rfl⟩
  | cons i is ih =>
    have hw' : ∀ i ∈ is, i.WF := fun j hj => hw j (List.mem_cons_of_mem _ hj)
    have hi := hw i (List.mem_cons_self ..)
    cases i with
    | lit c =>
      cases k with
      | zero => simp [formatOf, Item.chars] at hk
      | succ k =>
        obtain ⟨k', hk', h⟩ := ih hw' (k := k) (by simp [formatOf, Item.chars] at hk ⊢; omega) va
          (put out maxlen c p)
        refine ⟨k', hk', ?_⟩
        have hl : formatOf (.lit c :: is) ++ rest = c :: (formatOf is ++ rest) := rfl
        have hc : c ≠ ch '%' := hi
        rw [hl, vsnprintfLoop, if_pos hc, h, render]
        cases render is va with
        | error e => rfl
        | ok r => rfl
    | dir x c =>
      cases k with
      | zero => simp [formatOf, Item.chars] at hk
      | succ k =>
        have hl : formatOf (.dir x c :: is) ++ rest =
            ch '%' :: (x.chars ++ c :: (formatOf is ++ rest)) := by
          simp [formatOf, Item.chars]
        have hlen : (formatOf is ++ rest).length ≤ k := by
          rw [hl] at hk
          simp only [List.length_cons, List.length_append] at hk ⊢
          omega
        rw [hl, vsnprintfLoop, if_neg (fun h => h rfl), directive_chars out maxlen x c _ va p hi, render]
        cases hf : x.fields [] va with
        | error e => exact ⟨k, by rw [List.length_append] at hlen; omega, rfl⟩
        | ok f =>
          simp only [Except.bind, bind]
          cases hc : convText c f with
          | error e => exact ⟨k, by rw [List.length_append] at hlen; omega, rfl⟩
          | ok r =>
            obtain ⟨k', hk', h⟩ := ih hw' hlen r.2 (puts out maxlen r.1 p)
            refine ⟨k', hk', ?_⟩
            simp only [Except.map]
            rw [h]
            cases render is r.2 with
            | error e => rfl
            | ok r' =>
              simp only [Except.bind]
              rw [puts_append]

theorem vsnprintfLoop_cut {rest : List UInt8} (ht : Tail rest) (hne : rest ≠ []) (k : ℕ) (va : List Arg)
    (p : ℕ × σ) : ∃ e, vsnprintfLoop out maxlen k rest va p = .error e := by
  cases ht with
  | done => exact absurd rfl hne
  | cut x hx =>
    cases k with
    | zero => exact ⟨_, rfl⟩
    | succ k =>
      obtain ⟨e, he⟩ := directive_cut out maxlen x va p hx
      refine ⟨e, ?_⟩
      rw [vsnprintfLoop, if_neg (fun h => h rfl), he]
      rfl

/-- **The loop returns if and only if the format is a sequence of items that have their arguments**, and
then it has put out their text. -/
theorem vsnprintfLoop_ok_iff (format : List UInt8) (va va' : List Arg) (p q : ℕ × σ) :
    vsnprintfLoop out maxlen format.length format va p = .ok (va', q) ↔
      ∃ is text, (∀ i ∈ is, i.WF) ∧ format = formatOf is ∧ render is va = .ok (text, va') ∧
        q = puts out maxlen text p := by
  constructor
  · intro h
    obtain ⟨is, rest, hw, ht, rfl⟩ := exists_items format
    obtain ⟨k', -, he⟩ := vsnprintfLoop_items out maxlen hw rest le_rfl va p
    rw [he] at h
    cases hr : render is va with
    | error e => rw [hr] at h; cases h
    | ok r =>
      rw [hr] at h
      simp only [Except.bind] at h
      by_cases hne : rest = []
      · subst hne
        rw [vsnprintfLoop] at h
        obtain ⟨h1, h2⟩ := Prod.mk.inj (Except.ok.inj h)
        exact ⟨is, r.1, hw, List.append_nil _, by rw [hr, ← h1], h2.symm⟩
      · obtain ⟨e, hcut⟩ := vsnprintfLoop_cut out maxlen ht hne k' r.2 (puts out maxlen r.1 p)
        rw [hcut] at h
        cases h
  · rintro ⟨is, text, hw, rfl, hr, rfl⟩
    obtain ⟨k', -, he⟩ := vsnprintfLoop_items out maxlen hw [] (k := (formatOf is).length)
      (by rw [List.append_nil]) va p
    rw [List.append_nil] at he
    rw [he, hr]
    cases k' <;> rfl

end

end FusionCore.Libk.Kprintf
