import FusionCore.Libk.KprintfSpec

/-! # Integer directives and the field C prescribes (`libk/kprintf/kprintf.c`)

`Spec.isoFields` is what C reads of a specification and its arguments: numbers in the format are
taken as they stand, and a negative precision from a `*` as if it were left out. The code differs in
both (`fields_eq`): it keeps the low 32 bits of a number, and after a negative precision the
precision is `0`.

`isoInt` is the field C prescribes for an integer. `directive_iso_iff` says when a directive without the
alternate form puts it out, `directive_hash_iff` when a hexadecimal one with it does. -/

namespace FusionCore.Libk.Kprintf

open FusionCore.Lib.ByteMem

/-! ### What C reads -/

/-- The number that digits stand for. -/
def decimal (ds : List (Fin 10)) (i : ℕ) : ℕ := ds.foldl (fun i d => i * 10 + d.val) i

/-- The number a count gives; `*` takes the first of the arguments. -/
def Count.number (va : List Arg) : Count → ℤ
  | .none => 0
  | .star => (va.head?.map Arg.int).getD 0
  | .num ds => decimal ds 0

/-- The arguments behind a count. -/
def Count.behind (va : List Arg) : Count → List Arg
  | .star => va.tail
  | _ => va

namespace Spec

/-- What a precision gives, if there is one. -/
def precNumber (x : Spec) (va : List Arg) : Option ℤ := x.prec.map (Count.number (x.width.behind va))

/-- The precision comes from an argument that is negative. -/
def negativePrec (x : Spec) (va : List Arg) : Bool := (x.precNumber va).any (· < 0)

/-- The precision, where a negative one counts as if it were left out. -/
def isoPrec (x : Spec) (va : List Arg) : Option ℕ :=
  if x.negativePrec va then none else (x.precNumber va).map Int.toNat

/-- The fields C reads of a specification, followed by `format`. A negative width is a `-` flag and a
width. -/
def isoFields (x : Spec) (format : List UInt8) (va : List Arg) : Fields :=
  let flags := x.length.set (x.flags.foldl Flag.set {})
  { flags := { flags with
      left := flags.left || decide (x.width.number va < 0)
      precision := (x.isoPrec va).isSome }
    width := (x.width.number va).natAbs
    precision := (x.isoPrec va).getD 0
    format
    va := (x.prec.getD .none).behind (x.width.behind va) }

end Spec

/-- What stands before the digits: the sign of a signed number, and the prefix of a hexadecimal one in the
alternate form. -/
def signFor (c : UInt8) (f : Fields) (a : Arg) : List UInt8 :=
  if isSigned c then signOf (isNegative c f a) f.flags.plus f.flags.space
  else if baseOf c = 16 ∧ f.flags.hash ∧ magnitude c f a ≠ 0 then hexPrefix (c = ch 'X')
  else []

/-- The field C prescribes for an integer conversion with these fields. -/
def isoInt (c : UInt8) (f : Fields) (a : Arg) : List UInt8 :=
  isoField f.flags.left f.flags.zeropad (signFor c f a) (c = ch 'X') (baseOf c)
    (if f.flags.precision then some f.precision else none) f.width (magnitude c f a)

/-! ### What the code reads -/

theorem value_eq (ds : List (Fin 10)) (i : ℕ) : value ds (i % 2 ^ 32) = decimal ds i % 2 ^ 32 := by
  induction ds generalizing i with
  | nil => rfl
  | cons d ds ih =>
    have hstep : (i % 2 ^ 32 * 10 + d.val) % 2 ^ 32 = (i * 10 + d.val) % 2 ^ 32 := by omega
    exact (congrArg (value ds) hstep).trans (ih _)

theorem natAbs_int_lt (a : Arg) : a.int.natAbs < 2 ^ 32 := by
  have h := (a.word.setWidth 32).isLt
  rw [Arg.int, BitVec.toInt_eq_toNat_cond]
  split_ifs <;> omega

theorem asWidth_eq {k : Count} {f f' : Fields} (h0 : f.width = 0) (h : k.asWidth f = .ok f') :
    f' = { f with
      flags := { f.flags with left := f.flags.left || decide (k.number f.va < 0) }
      width := (k.number f.va).natAbs % 2 ^ 32
      va := k.behind f.va } := by
  obtain ⟨flags, width, precision, format, va⟩ := f
  obtain rfl : width = 0 := h0
  cases k with
  | none =>
    obtain rfl := Except.ok.inj h
    simp [Count.number, Count.behind]
  | num ds =>
    obtain rfl := Except.ok.inj h
    have hval : value ds 0 = decimal ds 0 % 2 ^ 32 := value_eq ds 0
    have hpos : ¬ (decimal ds 0 : ℤ) < 0 := by omega
    simp only [Count.number, Count.behind, hval, hpos, decide_false, Bool.or_false, Int.natAbs_natCast]
  | star =>
    cases va with
    | nil => cases h
    | cons a va =>
      have hlt := natAbs_int_lt a
      simp only [Count.asWidth, vaArg, bind, Except.bind] at h
      simp only [Count.number, Count.behind, List.head?_cons, Option.map_some, Option.getD_some,
        List.tail_cons]
      split_ifs at h with hneg
      · obtain rfl := Except.ok.inj h
        simp only [hneg, decide_true, Bool.or_true, Nat.mod_eq_of_lt hlt]
      · obtain rfl := Except.ok.inj h
        simp only [hneg, decide_false, Bool.or_false, Nat.mod_eq_of_lt hlt,
          show a.int.toNat = a.int.natAbs by omega]

theorem precFields_eq {k : Option Count} {f f' : Fields} (h0 : f.precision = 0)
    (hp : f.flags.precision = false) (h : precFields f k = .ok f') :
    f' = { f with
      flags := { f.flags with precision := k.isSome }
      precision := ((k.map (Count.number f.va)).getD 0).toNat % 2 ^ 32
      va := (k.getD .none).behind f.va } := by
  obtain ⟨flags, width, precision, format, va⟩ := f
  obtain rfl : precision = 0 := h0
  cases k with
  | none =>
    obtain rfl := Except.ok.inj h
    simp [Count.behind, ← hp]
  | some k =>
    cases k with
    | none =>
      obtain rfl := Except.ok.inj h
      simp [Count.number, Count.behind]
    | num ds =>
      obtain rfl := Except.ok.inj h
      have hval : value ds 0 = decimal ds 0 % 2 ^ 32 := value_eq ds 0
      simp [Count.number, Count.behind, hval]
    | star =>
      cases va with
      | nil => cases h
      | cons a va =>
        obtain rfl := Except.ok.inj h
        have hlt := natAbs_int_lt a
        simp [Count.number, Count.behind]
        omega

theorem foldl_set_inv (fl : List Flag) (fs : Flags) :
    (fl.foldl Flag.set fs).uppercase = fs.uppercase ∧
    (fl.foldl Flag.set fs).precision = fs.precision := by
  induction fl generalizing fs with
  | nil => exact ⟨rfl, rfl⟩
  | cons k fl ih =>
    obtain ⟨h1, h2⟩ := ih (k.set fs)
    refine ⟨h1.trans ?_, h2.trans ?_⟩ <;> cases k <;> rfl

theorem length_set (k : Length) (fs : Flags) (left precision : Bool) :
    k.set { fs with left, precision } = { k.set fs with left, precision } ∧ (k.set fs).left = fs.left ∧
      (k.set fs).uppercase = fs.uppercase := by
  cases k <;> exact ⟨rfl, rfl, rfl⟩

variable {x : Spec} {l : List UInt8} {va va' : List Arg} {f : Fields} {c : UInt8} {a : Arg}

theorem isoPrec_getD : (x.isoPrec va).getD 0 = ((x.precNumber va).getD 0).toNat := by
  unfold Spec.isoPrec Spec.negativePrec
  cases x.precNumber va with
  | none => rfl
  | some n =>
    by_cases hn : n < 0
    · simp [hn, Int.toNat_of_nonpos hn.le]
    · simp [hn]

/-- **What the code reads**, as against C: it takes numbers modulo `2 ^ 32`, and every precision as
given. -/
theorem fields_eq (h : x.fields l va = .ok f) : f = { x.isoFields l va with
    flags := { (x.isoFields l va).flags with precision := x.prec.isSome }
    width := (x.isoFields l va).width % 2 ^ 32
    precision := (x.isoFields l va).precision % 2 ^ 32 } := by
  unfold Spec.fields at h
  simp only [bind, Except.bind] at h
  cases hw : x.width.asWidth { flags := x.flags.foldl Flag.set {}, format := l, va } with
  | error e =>
    rw [hw] at h
    cases h
  | ok f₁ =>
    rw [hw] at h
    obtain rfl := asWidth_eq rfl hw
    simp only at h
    cases hp : precFields _ x.prec with
    | error e =>
      rw [hp] at h
      cases h
    | ok f₂ =>
      rw [hp] at h
      obtain rfl := Except.ok.inj h
      obtain rfl := precFields_eq rfl (foldl_set_inv x.flags {}).2 hp
      obtain ⟨h1, h2, -⟩ := length_set x.length (x.flags.foldl Flag.set {})
        ((x.flags.foldl Flag.set {}).left || decide (x.width.number va < 0)) x.prec.isSome
      simp only [Spec.isoFields, isoPrec_getD, h1, h2]
      rfl

theorem behind_ne_nil {k : Count} (h : k.behind va ≠ []) : va ≠ [] := by
  rintro rfl
  exact h (by cases k <;> rfl)

theorem exists_asWidth (k : Count) (h : f.va ≠ []) : ∃ f', k.asWidth f = .ok f' := by
  obtain ⟨a, va, hva⟩ := List.exists_cons_of_ne_nil h
  cases k with
  | none => exact ⟨_, rfl⟩
  | num ds => exact ⟨_, rfl⟩
  | star =>
    simp only [Count.asWidth, hva, vaArg, bind, Except.bind]
    split_ifs
    · exact ⟨_, rfl⟩
    · exact ⟨_, rfl⟩

theorem exists_precFields (k : Option Count) (h : f.va ≠ []) : ∃ f', precFields f k = .ok f' := by
  obtain ⟨a, va, hva⟩ := List.exists_cons_of_ne_nil h
  cases k with
  | none => exact ⟨_, rfl⟩
  | some k =>
    cases k with
    | none => exact ⟨_, rfl⟩
    | num ds => exact ⟨_, rfl⟩
    | star => simp [precFields, hva, vaArg, bind, Except.bind]

theorem exists_fields (hva : (x.isoFields l va).va = a :: va') : ∃ f, x.fields l va = .ok f ∧
    f.va = a :: va' := by
  have hne : (x.prec.getD .none).behind (x.width.behind va) ≠ [] := by
    rw [show (x.prec.getD .none).behind (x.width.behind va) = a :: va' from hva]
    exact List.cons_ne_nil a va'
  have hne1 := behind_ne_nil hne
  obtain ⟨f₁, h1⟩ := exists_asWidth (f := { flags := x.flags.foldl Flag.set {}, format := l, va }) x.width
    (behind_ne_nil hne1)
  have hva1 : f₁.va ≠ [] := by
    rw [asWidth_eq rfl h1]
    exact hne1
  obtain ⟨f₂, h2⟩ := exists_precFields x.prec hva1
  have hok : x.fields l va = .ok { f₂ with flags := x.length.set f₂.flags } := by
    rw [Spec.fields]
    simp only [bind, Except.bind, h1, h2]
  exact ⟨_, hok, (congrArg Fields.va (fields_eq hok)).trans hva⟩

/-- What holds of the fields of every specification: no letter has been read yet, and the precision is `0`
where none is given. -/
theorem fields_inv (h : x.fields l va = .ok f) :
    f.flags.uppercase = false ∧ (f.flags.precision = false → f.precision = 0) := by
  rw [fields_eq h]
  refine ⟨?_, fun hp => ?_⟩
  · obtain ⟨-, -, hu⟩ := length_set x.length (x.flags.foldl Flag.set {}) false false
    exact hu.trans (foldl_set_inv x.flags {}).1
  · have hnone : x.prec = none := Option.isSome_eq_false_iff.mp hp |> Option.isNone_iff_eq_none.mp
    simp [Spec.isoFields, isoPrec_getD, Spec.precNumber, hnone]

theorem fields_eq_iso (h : x.fields l va = .ok f) (hn : x.negativePrec va = false)
    (hw : (x.isoFields l va).width < 2 ^ 32) (hp : (x.isoFields l va).precision < 2 ^ 32) :
    f = x.isoFields l va := by
  have hsome : x.prec.isSome = (x.isoFields l va).flags.precision := by
    simp [Spec.isoFields, Spec.isoPrec, hn, Spec.precNumber]
  rw [fields_eq h, Nat.mod_eq_of_lt hw, Nat.mod_eq_of_lt hp, hsome]

theorem fields_eq_negative (h : x.fields l va = .ok f) (hn : x.negativePrec va = true)
    (hw : (x.isoFields l va).width < 2 ^ 32) :
    f = { x.isoFields l va with
        flags := { (x.isoFields l va).flags with precision := true }
        precision := 0 } ∧
      (x.isoFields l va).flags.precision = false ∧ (x.isoFields l va).precision = 0 := by
  have hsome : x.prec.isSome = true := by
    unfold Spec.negativePrec Spec.precNumber at hn
    cases hx : x.prec with
    | none => simp [hx] at hn
    | some k => rfl
  have hprec : (x.isoFields l va).precision = 0 := by simp [Spec.isoFields, Spec.isoPrec, hn]
  refine ⟨?_, by simp [Spec.isoFields, Spec.isoPrec, hn], hprec⟩
  rw [fields_eq h, Nat.mod_eq_of_lt hw, hsome, hprec]
  rfl

/-! ### Lengths and counts -/

theorem length_padField (left : Bool) (width : ℕ) (s : List UInt8) :
    (padField left width s).length = max width s.length := by
  unfold padField
  split_ifs <;> simp <;> omega

theorem ntoaPad_width_le (b : NtoaBuf) (negative : Bool) (prec width : ℕ) (flags : Flags) :
    (ntoaPad b negative prec width flags).2 ≤ width := by
  unfold ntoaPad
  split_ifs <;> simp

theorem length_ntoaText_le (v : ℕ) (negative : Bool) (base prec width : ℕ) (flags : Flags) :
    (ntoaText v negative base prec width flags).length ≤ max width 32 := by
  unfold ntoaText
  obtain ⟨b, w, hb⟩ : ∃ b w, ntoaBuf v negative base prec width flags = (b, w) := ⟨_, _, rfl⟩
  have hw : w ≤ width := by
    rw [show w = (ntoaBuf v negative base prec width flags).2 by rw [hb]]
    exact ntoaPad_width_le ..
  have hfits := b.fits
  rw [hb]
  simp only [revText]
  split_ifs
  · rw [List.length_reverse]
    omega
  · rw [length_padField, List.length_reverse]
    omega

/-- The digits of the field C prescribes, with the zeros of the precision. -/
def isoBody (up : Bool) (base : ℕ) (prec : Option ℕ) (v : ℕ) : List UInt8 :=
  bodyOf up (prec.getD 1) (Nat.digits base v)

theorem isoField_body (left zero : Bool) (sign : List UInt8) (up : Bool) (base : ℕ) (prec : Option ℕ)
    (width v : ℕ) : isoField left zero sign up base prec width v =
      if left then padField true width (sign ++ isoBody up base prec v)
      else if zero ∧ prec = none then
        sign ++ List.replicate (width - sign.length - (isoBody up base prec v).length) (ch '0') ++
          isoBody up base prec v
      else padField false width (sign ++ isoBody up base prec v) := by
  simp only [isoField, isoBody, bodyOf, List.length_map, List.length_reverse]

theorem length_isoField_ge (left zero : Bool) (sign : List UInt8) (up : Bool) (base : ℕ) (prec : Option ℕ)
    (width v : ℕ) : width ≤ (isoField left zero sign up base prec width v).length ∧
      prec.getD 1 ≤ (isoField left zero sign up base prec width v).length := by
  have hbody : (isoBody up base prec v).length = max (prec.getD 1) (Nat.digits base v).length :=
    bodyOf_length ..
  rw [isoField_body]
  split_ifs <;> simp only [length_padField, List.length_append, List.length_replicate] <;> omega

theorem countP_isoField {base : ℕ} (hb : 2 ≤ base) (h16 : base ≤ 16) (left zero : Bool)
    (sign : List UInt8) (up : Bool) (prec : Option ℕ) (width v : ℕ) :
    (isoField left zero sign up base prec width v).countP solid =
      sign.countP solid + (isoBody up base prec v).length +
        if left = false ∧ zero = true ∧ prec = none then
          width - sign.length - (isoBody up base prec v).length else 0 := by
  have hsolid : (isoBody up base prec v).countP solid = (isoBody up base prec v).length :=
    List.countP_eq_length.mpr (bodyOf_solid up _ fun d hd =>
      lt_of_lt_of_le (Nat.digits_lt_base (by omega) hd) h16)
  have hzeros : ∀ n, (List.replicate n (ch '0')).countP solid = n := fun n => by
    rw [List.countP_replicate, if_pos (by decide)]
  rw [isoField_body]
  cases left with
  | true => simp [countP_padField, hsolid]
  | false =>
    by_cases hz : zero = true ∧ prec = none
    · simp only [Bool.false_eq_true, if_false, if_pos hz, true_and, List.countP_append, hsolid, hzeros]
      omega
    · simp [hz, countP_padField, hsolid]

/-! ### A precision that is left out, as against `0` -/

/-- The field is filled up with zeros where no precision is given. -/
def NeedsZeros (c : UInt8) (f : Fields) (a : Arg) : Prop :=
  f.flags.left = false ∧ f.flags.zeropad = true ∧
    (signFor c f a).length + (Nat.digits (baseOf c) (magnitude c f a)).length < f.width

instance (c : UInt8) (f : Fields) (a : Arg) : Decidable (NeedsZeros c f a) := by
  unfold NeedsZeros; infer_instance

section Given
variable {base v width : ℕ} {left zero : Bool} {sign : List UInt8} {up : Bool}

theorem isoField_given (hv : v ≠ 0)
    (hn : ¬ (left = false ∧ zero = true ∧ sign.length + (Nat.digits base v).length < width)) :
    isoField left zero sign up base (some 0) width v = isoField left zero sign up base none width v := by
  have hpos : 0 < (Nat.digits base v).length :=
    List.length_pos_of_ne_nil (Nat.digits_ne_nil_iff_ne_zero.mpr hv)
  have hbody : isoBody up base (some 0) v = isoBody up base none v := by
    unfold isoBody bodyOf
    rw [show (some 0 : Option ℕ).getD 1 - (Nat.digits base v).length = 0 from Nat.zero_sub _,
      show (none : Option ℕ).getD 1 - (Nat.digits base v).length = 0 from Nat.sub_eq_zero_of_le hpos]
  have hlen : (isoBody up base none v).length = (Nat.digits base v).length := by
    rw [isoBody, bodyOf_length]
    exact max_eq_right hpos
  rw [isoField_body, isoField_body, hbody]
  cases left with
  | true => rfl
  | false =>
    cases zero with
    | false => simp
    | true =>
      have hle : width ≤ sign.length + (Nat.digits base v).length := by
        by_contra h
        exact hn ⟨rfl, rfl, by omega⟩
      simp [padField, hlen, show width - sign.length - (Nat.digits base v).length = 0 by omega,
        show width - (sign.length + (Nat.digits base v).length) = 0 by omega]

theorem countP_isoField_given (hb : 2 ≤ base) (h16 : base ≤ 16)
    (h : v = 0 ∨ left = false ∧ zero = true ∧ sign.length + (Nat.digits base v).length < width) :
    (isoField left zero sign up base (some 0) width v).countP solid <
      (isoField left zero sign up base none width v).countP solid := by
  have h0 : (isoBody up base (some 0) v).length = (Nat.digits base v).length := by
    rw [isoBody, bodyOf_length]
    exact Nat.zero_max ..
  have h1 : (isoBody up base none v).length = max 1 (Nat.digits base v).length := bodyOf_length ..
  rw [countP_isoField hb h16, countP_isoField hb h16, h0, h1, if_neg (by simp)]
  rcases h with rfl | ⟨rfl, rfl, hlt⟩
  · rw [Nat.digits_zero, List.length_nil]
    omega
  · rw [if_pos ⟨rfl, rfl, rfl⟩]
    omega

theorem countP_ntoaText_le (hb : 2 ≤ base) (h16 : base ≤ 16) (negative : Bool) {flags : Flags}
    (hh : flags.hash = false) (hp : flags.precision = true) (hz : flags.zeropad = false) :
    (ntoaText v negative base 0 width flags).countP solid ≤
      (isoField left zero (signOf negative flags.plus flags.space) up base (some 0) width
        v).countP solid := by
  have hds : digitsFor true base v = Nat.digits base v := by
    unfold digitsFor digitsOf
    by_cases hv : v = 0
    · simp [hv]
    · simp [hv]
  have hlt := digitsFor_lt hb h16 flags.precision v
  have hsolid : ∀ c ∈ ntoaBody flags negative base 0 width v, solid c = true :=
    bodyOf_solid _ _ fun d hd => hlt d (List.mem_of_mem_take hd)
  have hlen : (ntoaBody flags negative base 0 width v).length ≤ (Nat.digits base v).length := by
    rw [ntoaBody_length, hp, hds, hz, target]
    simp
  have h0 : (isoBody up base (some 0) v).length = (Nat.digits base v).length := by
    rw [isoBody, bodyOf_length]
    exact Nat.zero_max ..
  rw [ntoaText_eq hb v negative 0 width flags hh, countP_fieldOf _ _ _ _ hsolid,
    countP_isoField hb h16, h0]
  by_cases h32 : (ntoaBody flags negative base 0 width v).length < 32
  · rw [if_pos h32]
    omega
  · rw [if_neg h32, List.countP_nil]
    omega

end Given

theorem isoField_zeropad (left zero : Bool) (sign : List UInt8) (up : Bool) (base : ℕ) (precision : Bool)
    (prec width v : ℕ) :
    isoField left (zero && !precision) sign up base (if precision then some prec else none) width v =
      isoField left zero sign up base (if precision then some prec else none) width v := by
  cases precision <;> simp [isoField]

/-! ### The field C prescribes -/

/-- The digits of the field C prescribes, with their zeros. -/
def fieldDigits (c : UInt8) (f : Fields) (a : Arg) : ℕ :=
  max (target f.flags.left (f.flags.zeropad && !f.flags.precision) (signFor c f a) f.precision f.width)
    (digitsFor f.flags.precision (baseOf c) (magnitude c f a)).length

/-- There is room for the field: the zeros of the precision are not left out, and the sign and the digits
fit into 32 characters, or a space for a sign comes out of the padding. -/
def Fits (c : UInt8) (f : Fields) (a : Arg) : Prop :=
  (f.flags.left = true → f.precision ≤ (digitsFor f.flags.precision (baseOf c)
    (magnitude c f a)).length) ∧
      (signFor c f a).length + fieldDigits c f a ≤ 32 ∨
    fieldDigits c f a = 32 ∧ signFor c f a = [ch ' '] ∧ f.flags.left = false ∧
      (f.flags.zeropad && !f.flags.precision) = false ∧ 32 < f.width

instance (c : UInt8) (f : Fields) (a : Arg) : Decidable (Fits c f a) := by unfold Fits; infer_instance

theorem signFor_eq {c : UInt8} {f : Fields} (hh : f.flags.hash = false ∨ baseOf c = 10) (a : Arg) :
    signFor c f a = signOf (isNegative c f a) (intFlags c f.flags).plus (intFlags c f.flags).space := by
  obtain ⟨-, -, -, -, -, h6, h7, -, -⟩ := intFlags_spec c f.flags
  have hb : ¬ (baseOf c = 16 ∧ f.flags.hash = true ∧ magnitude c f a ≠ 0) := by
    rintro ⟨h1, h2, -⟩
    rcases hh with h | h
    · rw [h] at h2
      cases h2
    · omega
  unfold signFor
  rw [h6, h7, if_neg hb]
  cases hs : isSigned c with
  | true => simp
  | false => simp [isNegative, hs, signOf]

/-- An integer conversion without the alternate form puts out the field of the fields that were read
if and only if there is room for it. -/
theorem intText_iso_iff (hf : x.fields l va = .ok f)
    (hh : f.flags.hash = false ∨ baseOf c = 10) (a : Arg) :
    intText c f a = isoInt c f a ↔ Fits c f a := by
  obtain ⟨hup, hprec⟩ := fields_inv hf
  obtain ⟨h1, h2, h3, -, h5, h6, h7, -, -⟩ := intFlags_spec c f.flags
  have hup' : (intFlags c f.flags).uppercase = decide (c = ch 'X') := by rw [h5, hup, Bool.false_or]
  have key := ntoaText_iso_iff (baseOf_le c).1 (baseOf_le c).2 (magnitude c f a)
    (isNegative c f a) f.precision
    f.width (intFlags_hash hh)
    (fun h => by rw [h3, ← h2, h]; simp) (fun h => hprec (h2.symm.trans h))
  simp only [← signFor_eq hh a, h1, h2, h3, hup', isoField_zeropad] at key
  rw [intText_eq]
  exact key

/-- The alternate form of a hexadecimal number is this field if and only if, with a precision, it has
room, and without one the width is not that of the digits, nor one more where zeros fill it up. -/
theorem intText_hash_iff (hf : x.fields l va = .ok f) (hc : baseOf c = 16)
    (hh : f.flags.hash = true) (a : Arg) (h0 : magnitude c f a ≠ 0) :
    let nd := (Nat.digits 16 (magnitude c f a)).length
    intText c f a = isoInt c f a ↔
      if f.flags.precision then (f.flags.left = true → f.precision ≤ nd) ∧ f.precision ≤ 30
      else if f.flags.left = false ∧ f.flags.zeropad = true then
        f.width ≤ 32 ∧ (f.width < nd ∨ nd + 2 ≤ f.width)
      else f.width ≠ nd := by
  intro nd
  obtain ⟨hup, hprec⟩ := fields_inv hf
  obtain ⟨h1, h2, h3, h4, h5, h6, h7, -, -⟩ := intFlags_spec c f.flags
  have hup' : (intFlags c f.flags).uppercase = decide (c = ch 'X') := by rw [h5, hup, Bool.false_or]
  have hu : isSigned c = false := by
    refine decide_eq_false fun h => ?_
    rcases h with rfl | rfl <;> exact absurd hc (by decide)
  have hneg : isNegative c f a = false := by rw [isNegative, hu, Bool.false_and]
  have hlt := magnitude_lt c f a
  have hsign : signFor c f a = hexPrefix (c = ch 'X') := by
    rw [signFor, hu, if_neg Bool.false_ne_true, if_pos ⟨hc, hh, h0⟩]
  have key := ntoaText_hash_iff h0 hlt f.precision f.width
    (show (intFlags c f.flags).hash = true by rw [h4, hh, hc]; rfl) (by rw [h6, h7, hu]; simp)
    (fun h => by rw [h3, ← h2, h]; simp) (fun h => hprec (h2.symm.trans h))
  simp only [h1, h2, h3, hup', isoField_zeropad] at key
  rw [intText_eq, hneg, isoInt, hsign, hc]
  rw [key]
  by_cases hp : f.flags.precision = true
  · rw [if_pos hp, if_pos hp]
  · have hz : (f.flags.zeropad && !f.flags.precision) = f.flags.zeropad := by simp [hp]
    rw [if_neg hp, if_neg hp, hz]

/-! ### The fields the code has read, as against those of C -/

theorem intText_ne_of_wide (hf : x.fields l va = .ok f) (a : Arg)
    (h : 2 ^ 32 ≤ (x.isoFields l va).width ∨ 2 ^ 32 ≤ (x.isoFields l va).precision) :
    intText c f a ≠ isoInt c (x.isoFields l va) a := by
  have hw : f.width < 2 ^ 32 := by
    rw [fields_eq hf]
    exact Nat.mod_lt _ (by norm_num)
  intro he
  have hlen := congrArg List.length he
  rw [intText_eq] at hlen
  have hle := length_ntoaText_le (magnitude c f a) (isNegative c f a) (baseOf c) f.precision f.width
    (intFlags c f.flags)
  have hge := length_isoField_ge (x.isoFields l va).flags.left (x.isoFields l va).flags.zeropad
    (signFor c (x.isoFields l va) a) (c = ch 'X') (baseOf c)
    (if (x.isoFields l va).flags.precision then some (x.isoFields l va).precision else none)
    (x.isoFields l va).width (magnitude c (x.isoFields l va) a)
  rw [isoInt] at hlen
  rcases h with h | h
  · omega
  · have hp : (x.isoFields l va).flags.precision = true := by
      by_contra hp
      have hnone : x.isoPrec va = none := Option.not_isSome_iff_eq_none.mp hp
      have h0 : (x.isoFields l va).precision = 0 := by simp [Spec.isoFields, hnone]
      omega
    rw [if_pos hp] at hge hlen
    have := hge.2
    rw [Option.getD_some] at this
    omega

theorem digits_le_of_space (h : signFor c f a = [ch ' ']) :
    (Nat.digits (baseOf c) (magnitude c f a)).length ≤ 20 := by
  have hs : isSigned c = true := by
    by_contra hs
    rw [signFor, if_neg hs] at h
    split_ifs at h
    simp [hexPrefix] at h
  have h10 : baseOf c = 10 := by
    simp only [isSigned, decide_eq_true_eq] at hs
    rcases hs with rfl | rfl <;> decide
  rw [h10, Nat.digits_length_le_iff (by norm_num)]
  exact lt_of_lt_of_le (magnitude_lt c f a) (by norm_num)

section Negative
variable {g : Fields} (hfg : f = { g with flags := { g.flags with precision := true }, precision := 0 })
  (hg : g.flags.precision = false ∧ g.precision = 0)
include hfg hg

theorem isoInt_given (h0 : magnitude c g a ≠ 0) (hn : ¬ NeedsZeros c g a) :
    isoInt c f a = isoInt c g a := by
  subst hfg
  rw [isoInt, isoInt, hg.1]
  exact isoField_given h0 hn

theorem fits_given (h0 : magnitude c g a ≠ 0) (hn : ¬ NeedsZeros c g a) : Fits c f a ↔ Fits c g a := by
  subst hfg
  set nd := (Nat.digits (baseOf c) (magnitude c g a)).length with hnd
  have hds : ∀ b, digitsFor b (baseOf c) (magnitude c g a) = Nat.digits (baseOf c) (magnitude c g a) := by
    intro b
    rw [digitsFor, if_neg fun h => h0 h.2, digitsOf, if_neg h0]
  have h1 :
      fieldDigits c { g with flags := { g.flags with precision := true }, precision := 0 } a = nd := by
    show max (target g.flags.left (g.flags.zeropad && !true) (signFor c g a) 0 g.width)
      (digitsFor true (baseOf c) (magnitude c g a)).length = _
    rw [hds, target]
    simp [hnd]
  have h2 : fieldDigits c g a = nd := by
    rw [fieldDigits, hds, target, hg.1, hg.2]
    by_cases hz : g.flags.left = false ∧ (g.flags.zeropad && !false) = true
    · have hle : ¬ (signFor c g a).length + nd < g.width := fun h => hn ⟨hz.1, by simpa using hz.2, h⟩
      rw [if_pos hz]
      omega
    · rw [if_neg hz]
      omega
  -- there is no space for a sign before 32 digits
  have hspace : signFor c g a = [ch ' '] → nd ≤ 20 := digits_le_of_space
  have hroom : ∀ {p q r : Prop}, nd = 32 ∧ signFor c g a = [ch ' '] ∧ p ∧ q ∧ r ↔ False := by
    intro p q r
    refine iff_false_intro fun h => ?_
    have := hspace h.2.1
    omega
  unfold Fits
  rw [h1, h2, hg.2]
  show (_ ∧ (signFor c g a).length + nd ≤ 32 ∨ nd = 32 ∧ signFor c g a = [ch ' '] ∧ _) ↔ _
  simp only [hroom, or_false, Nat.zero_le, implies_true, true_and]

theorem intText_ne_given (hh : g.flags.hash = false ∨ baseOf c = 10)
    (h : magnitude c g a = 0 ∨ NeedsZeros c g a) : intText c f a ≠ isoInt c g a := by
  subst hfg
  obtain ⟨hb, h16⟩ := baseOf_le c
  set f : Fields := { g with flags := { g.flags with precision := true }, precision := 0 } with hf
  obtain ⟨-, h2, h3, -, -, -, -, -, -⟩ := intFlags_spec c f.flags
  have hsign : signFor c g a = signOf (isNegative c f a) (intFlags c f.flags).plus
      (intFlags c f.flags).space :=
    signFor_eq (f := f) hh a
  have hle : (ntoaText (magnitude c g a) (isNegative c f a) (baseOf c) 0 g.width
      (intFlags c f.flags)).countP solid ≤
      (isoField g.flags.left g.flags.zeropad (signFor c g a) (c = ch 'X') (baseOf c) (some 0) g.width
        (magnitude c g a)).countP solid := by
    rw [hsign]
    exact countP_ntoaText_le hb h16 _ (intFlags_hash (f := f) hh) h2 (by rw [h3, hf]; simp)
  have hlt : _ < (isoField g.flags.left g.flags.zeropad (signFor c g a) (c = ch 'X')
      (baseOf c) none g.width
      (magnitude c g a)).countP solid := countP_isoField_given hb h16 h
  intro he
  rw [intText_eq, isoInt, hg.1] at he
  exact absurd (congrArg (List.countP solid) he) (Nat.ne_of_lt (lt_of_le_of_lt hle hlt))

end Negative

theorem precision_le_fieldDigits (c : UInt8) (f : Fields) (a : Arg) :
    f.precision ≤ fieldDigits c f a := by
  unfold fieldDigits target
  split_ifs <;> omega

/-- **An integer conversion without the alternate form**, whatever the specification and its
arguments: the text is the field C prescribes if and only if there is room for it, and after a
negative precision neither the value is 0 nor zeros fill up the field. -/
theorem intText_isoFields_iff (hf : x.fields l va = .ok f)
    (hh : (x.isoFields l va).flags.hash = false ∨ baseOf c = 10) (a : Arg) :
    intText c f a = isoInt c (x.isoFields l va) a ↔
      (x.isoFields l va).width < 2 ^ 32 ∧ Fits c (x.isoFields l va) a ∧
        (x.negativePrec va = true →
          magnitude c (x.isoFields l va) a ≠ 0 ∧ ¬ NeedsZeros c (x.isoFields l va) a) := by
  by_cases hw : (x.isoFields l va).width < 2 ^ 32
  swap
  · exact iff_of_false (intText_ne_of_wide hf a (Or.inl (Nat.not_lt.mp hw))) fun h => hw h.1
  cases hn : x.negativePrec va with
  | true =>
    obtain ⟨hfg, hg⟩ := fields_eq_negative hf hn hw
    have hhf : f.flags.hash = false ∨ baseOf c = 10 := by rwa [hfg]
    by_cases hgood : magnitude c (x.isoFields l va) a ≠ 0 ∧ ¬ NeedsZeros c (x.isoFields l va) a
    · rw [← isoInt_given hfg hg hgood.1 hgood.2, intText_iso_iff hf hhf,
        fits_given hfg hg hgood.1 hgood.2]
      exact ⟨fun h => ⟨hw, h, fun _ => hgood⟩, fun h => h.2.1⟩
    · refine iff_of_false (intText_ne_given hfg hg hh ?_) fun h => hgood (h.2.2 rfl)
      by_contra h
      exact hgood ⟨fun h0 => h (Or.inl h0), fun hz => h (Or.inr hz)⟩
  | false =>
    by_cases hp : (x.isoFields l va).precision < 2 ^ 32
    · obtain rfl := fields_eq_iso hf hn hw hp
      rw [intText_iso_iff hf hh]
      exact ⟨fun h => ⟨hw, h, fun hneg => absurd hneg Bool.false_ne_true⟩, fun h => h.2.1⟩
    · refine iff_of_false (intText_ne_of_wide hf a (Or.inr (Nat.not_lt.mp hp))) fun h => ?_
      have hle := precision_le_fieldDigits c (x.isoFields l va) a
      rcases h.2.1 with h | h
      · have := h.2
        omega
      · have := h.1
        omega

/-- **The alternate form of a hexadecimal number**, whatever the specification and its arguments. -/
theorem intText_isoFields_hash_iff (hf : x.fields l va = .ok f) (hc : baseOf c = 16)
    (hh : (x.isoFields l va).flags.hash = true) (a : Arg) (h0 : magnitude c (x.isoFields l va) a ≠ 0) :
    let g := x.isoFields l va
    let nd := (Nat.digits 16 (magnitude c g a)).length
    intText c f a = isoInt c g a ↔ g.width < 2 ^ 32 ∧
      if x.negativePrec va then ¬ NeedsZeros c g a
      else if g.flags.precision then (g.flags.left = true → g.precision ≤ nd) ∧ g.precision ≤ 30
      else if g.flags.left = false ∧ g.flags.zeropad = true then
        g.width ≤ 32 ∧ (g.width < nd ∨ nd + 2 ≤ g.width)
      else g.width ≠ nd := by
  intro g nd
  by_cases hw : g.width < 2 ^ 32
  swap
  · exact iff_of_false (intText_ne_of_wide hf a (Or.inl (Nat.not_lt.mp hw))) fun h => hw h.1
  cases hn : x.negativePrec va with
  | true =>
    obtain ⟨hfg, hg⟩ := fields_eq_negative hf hn hw
    have h0f : magnitude c f a ≠ 0 := by rwa [hfg]
    have hread : intText c f a = isoInt c f a := by
      refine (intText_hash_iff hf hc (by rwa [hfg]) a h0f).mpr ?_
      rw [hfg, if_pos rfl]
      exact ⟨fun _ => Nat.zero_le _, by norm_num⟩
    rw [hread, if_pos rfl]
    refine ⟨fun h => ⟨hw, fun hz => ?_⟩, fun h => isoInt_given hfg hg h0 h.2⟩
    have hlt : (isoInt c f a).countP solid < (isoInt c g a).countP solid := by
      rw [isoInt, isoInt, hg.1, hfg]
      exact countP_isoField_given (baseOf_le c).1 (baseOf_le c).2 (Or.inr hz)
    exact absurd (congrArg (List.countP solid) h) (Nat.ne_of_lt hlt)
  | false =>
    rw [if_neg Bool.false_ne_true]
    by_cases hp : g.precision < 2 ^ 32
    · have hfg : f = g := fields_eq_iso hf hn hw hp
      have key := intText_hash_iff hf hc (by rwa [hfg]) a (by rwa [hfg])
      rw [hfg] at key ⊢
      exact key.trans (by simp only [hw, true_and]; rfl)
    · have hprec : g.flags.precision = true := by
        by_contra hprec
        have hnone : x.isoPrec va = none := Option.not_isSome_iff_eq_none.mp hprec
        exact hp (by simp [g, Spec.isoFields, hnone])
      rw [if_pos hprec]
      exact iff_of_false (intText_ne_of_wide hf a (Or.inr (Nat.not_lt.mp hp))) fun h => hp (by omega)

/-! ### A directive on its own -/

section Directive
variable (hw : (Item.dir x c).WF) (hc : IntConv c) (hva : (x.isoFields [] va).va = a :: va')
include hw hc hva

/-- **An integer directive without the alternate form** puts out the field C prescribes if and only
if there is room for it, and after a negative precision neither the value is 0 nor zeros fill up the
field. -/
theorem directive_iso_iff (hh : (x.isoFields [] va).flags.hash = false ∨ baseOf c = 10) :
    let g := x.isoFields [] va
    putOut (Item.dir x c).chars va = .ok (isoInt c g a ++ [0]) ↔
      g.width < 2 ^ 32 ∧ Fits c g a ∧
        (x.negativePrec va = true → magnitude c g a ≠ 0 ∧ ¬ NeedsZeros c g a) := by
  obtain ⟨f, hf, hfva⟩ := exists_fields hva
  exact (putOut_int_iff hw hc hf hfva _).trans (intText_isoFields_iff hf hh a)

/-- **A hexadecimal directive in the alternate form** does so if and only if, with a precision, it
has room, and without one the width is not that of the digits, nor one more where zeros fill it up;
after a negative precision exactly if no zeros fill up the field. -/
theorem directive_hash_iff (hc16 : baseOf c = 16) (hh : (x.isoFields [] va).flags.hash = true)
    (h0 : magnitude c (x.isoFields [] va) a ≠ 0) :
    let g := x.isoFields [] va
    let nd := (Nat.digits 16 (magnitude c g a)).length
    putOut (Item.dir x c).chars va = .ok (isoInt c g a ++ [0]) ↔ g.width < 2 ^ 32 ∧
      if x.negativePrec va then ¬ NeedsZeros c g a
      else if g.flags.precision then (g.flags.left = true → g.precision ≤ nd) ∧ g.precision ≤ 30
      else if g.flags.left = false ∧ g.flags.zeropad = true then
        g.width ≤ 32 ∧ (g.width < nd ∨ nd + 2 ≤ g.width)
      else g.width ≠ nd := by
  obtain ⟨f, hf, hfva⟩ := exists_fields hva
  exact (putOut_int_iff hw hc hf hfva _).trans (intText_isoFields_hash_iff hf hc16 hh a h0)

end Directive

/-- `%-8.*d` of `-42`, with the precision `-1`. -/
theorem directive_iso_iff_dec :
    putOut (str "%-8.*d") [⟨BitVec.ofInt 64 (-1), none⟩, ⟨BitVec.ofInt 64 (-42), none⟩] =
      .ok (str "-42     " ++ [0]) := by
  have hva : (Spec.isoFields ⟨[.minus], .num [8], some .star, .none⟩ []
      [⟨BitVec.ofInt 64 (-1), none⟩, ⟨BitVec.ofInt 64 (-42), none⟩]).va =
        [⟨BitVec.ofInt 64 (-42), none⟩] := rfl
  have h := (directive_iso_iff (c := ch 'd') (by decide +kernel) (by decide) hva (Or.inl rfl)).mpr
    (by decide +kernel)
  exact h.trans (by decide +kernel)

/-- `%#2x` of `42`: the width is that of the digits. -/
theorem directive_hash_iff_hex : putOut (str "%#2x") [⟨42#64, none⟩] ≠ .ok (str "0x2a" ++ [0]) := by
  intro h
  have hiff := (directive_hash_iff (x := ⟨[.hash], .num [2], none, .none⟩) (c := ch 'x')
    (by decide +kernel)
    (by decide) (rfl : (Spec.isoFields _ [] [⟨42#64, none⟩]).va = _) rfl rfl (by decide)).mp
    (h.trans (by decide +kernel))
  exact absurd hiff (by decide +kernel)

end FusionCore.Libk.Kprintf
