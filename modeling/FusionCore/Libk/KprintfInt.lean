import FusionCore.Libk.KprintfGrammar
import Mathlib.Data.Nat.Digits.Lemmas

/-! # Integer conversions (`libk/kprintf/kprintf.c`)

`isoField` is the field that C prescribes for an integer: the digits, zeros up to the precision (which is
`1` when none is given), the sign, and spaces or zeros up to the width. The conversions work in a
buffer of 32 characters and leave out the zeros of the precision in a left-justified field.
`ntoaText_eq` gives their text with these two limits, and `ntoaText_iso_iff` says when it is the one
C prescribes.

* the digit loop and the zero padding in closed form: `ntoaDigits_chars`, `padZeros_chars`;
* the two fields in one shape: `ntoaText_eq`, `isoField_eq`, told apart by their characters from `0` on
  (`solid`);
* reading the digits back: `readDigits_ntoaBody`. -/

namespace FusionCore.Libk.Kprintf

open FusionCore.Lib.ByteMem

/-! ### The buffer -/

theorem push_chars {b : NtoaBuf} (h : b.len < 32) (c : UInt8) : (b.push c).chars = b.chars ++ [c] := by
  unfold NtoaBuf.push
  rw [dif_pos (show b.chars.length < 32 from h)]

theorem push_len {b : NtoaBuf} (h : b.len < 32) (c : UInt8) : (b.push c).len = b.len + 1 := by
  rw [NtoaBuf.len, push_chars h, List.length_append]
  rfl

theorem len_le (b : NtoaBuf) : b.len ≤ 32 := b.fits

/-- The digits of a number, lowest first; zero has the digit `0`. -/
def digitsOf (base v : ℕ) : List ℕ := if v = 0 then [0] else Nat.digits base v

theorem digitsOf_eq {base : ℕ} (hb : 2 ≤ base) (v : ℕ) :
    digitsOf base v = v % base :: if v / base = 0 then [] else digitsOf base (v / base) := by
  unfold digitsOf
  by_cases hv : v = 0
  · simp [hv]
  · rw [if_neg hv, Nat.digits_def' (by omega) (Nat.pos_of_ne_zero hv)]
    by_cases hq : v / base = 0
    · rw [if_pos hq, hq, Nat.digits_zero]
    · rw [if_neg hq, if_neg hq]

theorem ntoaDigits_chars {base : ℕ} (hb : 2 ≤ base) (up : Bool) (k v : ℕ) (b : NtoaBuf)
    (h : b.len + k = 32) :
    (ntoaDigits up base k v b).chars = b.chars ++ ((digitsOf base v).take k).map (digitChar up) := by
  induction k generalizing v b with
  | zero => simp [ntoaDigits]
  | succ k ih =>
    have hlt : b.len < 32 := by omega
    have hlen := push_len hlt (digitChar up (v % base))
    rw [ntoaDigits, digitsOf_eq hb v, List.take_succ_cons, List.map_cons]
    by_cases hq : v / base = 0
    · rw [if_neg fun h => h.1 hq, if_pos hq, List.take_nil, List.map_nil, push_chars hlt]
    · rw [if_neg hq]
      by_cases hk : k = 0
      · rw [if_neg (by omega), push_chars hlt, hk, List.take_zero, List.map_nil]
      · rw [if_pos ⟨hq, by omega⟩, ih _ _ (by omega), push_chars hlt, List.append_assoc]
        rfl

theorem padZeros_chars (n k : ℕ) (b : NtoaBuf) (h : min n 32 ≤ b.len + k) :
    (padZeros n k b).chars = b.chars ++ List.replicate (min n 32 - b.len) (ch '0') := by
  induction k generalizing b with
  | zero =>
    rw [padZeros, show min n 32 - b.len = 0 by omega]
    simp
  | succ k ih =>
    rw [padZeros]
    by_cases hc : b.len < n ∧ b.len < 32
    · have hlen := push_len hc.2 (ch '0')
      rw [if_pos hc, ih _ (by omega), push_chars hc.2, hlen,
        show min n 32 - b.len = min n 32 - (b.len + 1) + 1 by
            omega, List.replicate_succ, List.append_assoc]
      rfl
    · rw [if_neg hc, show min n 32 - b.len = 0 by omega]
      simp

/-! ### The field C prescribes -/

/-- The sign of a number. -/
def signOf (negative plus space : Bool) : List UInt8 :=
  if negative then [ch '-'] else if plus then [ch '+'] else if space then [ch ' '] else []

/-- The field of an integer in C: `prec` is the precision where one is given. -/
def isoField (left zero : Bool) (sign : List UInt8) (up : Bool) (base : ℕ) (prec : Option ℕ)
    (width v : ℕ) : List UInt8 :=
  let digits := (Nat.digits base v).reverse.map (digitChar up)
  let body := List.replicate (prec.getD 1 - digits.length) (ch '0') ++ digits
  if left then padField true width (sign ++ body)
  else if zero ∧ prec = none then
    sign ++ List.replicate (width - sign.length - body.length) (ch '0') ++ body
  else padField false width (sign ++ body)

/-- A sign and digits in a field: with zeros already among the digits, or with spaces. -/
def fieldOf (left zeropad : Bool) (width : ℕ) (sign body : List UInt8) : List UInt8 :=
  if left = false ∧ zeropad = true then sign ++ body else padField left width (sign ++ body)

/-- The digits, highest first, with zeros up to `n`. -/
def bodyOf (up : Bool) (n : ℕ) (ds : List ℕ) : List UInt8 :=
  List.replicate (n - ds.length) (ch '0') ++ ds.reverse.map (digitChar up)

theorem bodyOf_length (up : Bool) (n : ℕ) (ds : List ℕ) : (bodyOf up n ds).length = max n ds.length := by
  simp [bodyOf]
  omega

/-- The digits of a number, none for zero when a precision is given. -/
def digitsFor (precision : Bool) (base v : ℕ) : List ℕ :=
  if precision = true ∧ v = 0 then [] else digitsOf base v

/-- How many digits the field has: the precision, and with zero padding the width the sign leaves. -/
def target (left zeropad : Bool) (sign : List UInt8) (prec width : ℕ) : ℕ :=
  if left = false ∧ zeropad = true then max prec (width - sign.length) else prec

theorem isoBody_eq (up : Bool) (base prec v : ℕ) (precision : Bool) (hp : precision = false → prec = 0) :
    List.replicate ((if precision then some prec else none).getD 1 - (Nat.digits base v).length)
        (ch '0') ++ (Nat.digits base v).reverse.map (digitChar up) =
      bodyOf up prec (digitsFor precision base v) := by
  unfold bodyOf digitsFor digitsOf
  cases precision with
  | true =>
    by_cases hv : v = 0
    · simp [hv]
    · simp [hv]
  | false =>
    by_cases hv : v = 0
    · simp [hv, hp rfl]
      rfl
    · have hlen : 0 < (Nat.digits base v).length :=
        List.length_pos_of_ne_nil (Nat.digits_ne_nil_iff_ne_zero.mpr hv)
      have h1 : 1 - (Nat.digits base v).length = 0 := by omega
      simp [hv, hp rfl, h1]

theorem isoField_eq (left zeropad : Bool) (sign : List UInt8) (up : Bool) (base prec width v : ℕ)
    (precision : Bool) (hz : precision = true → zeropad = false) (hp : precision = false → prec = 0) :
    isoField left zeropad sign up base (if precision then some prec else none) width v =
      fieldOf left zeropad width sign
        (bodyOf up (target left zeropad sign prec width) (digitsFor precision base v)) := by
  unfold isoField
  simp only [List.length_map, List.length_reverse]
  rw [isoBody_eq up base prec v precision hp]
  cases left with
  | true => rfl
  | false =>
    cases zeropad with
    | false => simp [fieldOf, target]
    | true =>
      have hpf : precision = false := by
        cases precision with
        | false => rfl
        | true => exact absurd (hz rfl) Bool.true_eq_false_eq_False
      subst hpf
      simp [fieldOf, target, bodyOf, hp rfl]

theorem buffer_chars {base : ℕ} (hb : 2 ≤ base) (v : ℕ) (flags : Flags) :
    (if !flags.precision ∨ v ≠ 0 then ntoaDigits flags.uppercase base 32 v .empty else .empty).chars =
      ((digitsFor flags.precision base v).take 32).map (digitChar flags.uppercase) := by
  unfold digitsFor
  by_cases h : flags.precision = true ∧ v = 0
  · rw [if_pos h, if_neg (by simp [h.1, h.2])]
    rfl
  · have hd := ntoaDigits_chars hb flags.uppercase 32 v .empty rfl
    rw [if_neg h, if_pos (by cases hf : flags.precision <;> simp_all), hd]
    rfl

theorem signOf_length (negative plus space : Bool) :
    (signOf negative plus space).length = if negative ∨ plus ∨ space then 1 else 0 := by
  cases negative <;> cases plus <;> cases space <;> rfl

theorem ntoaPad_chars (b : NtoaBuf) (negative : Bool) (prec width : ℕ) (flags : Flags) :
    (ntoaPad b negative prec width flags).1.chars =
      b.chars ++ List.replicate (min (if flags.left then 0 else
        target flags.left flags.zeropad (signOf negative flags.plus flags.space) prec width)
          32 - b.len) (ch '0') := by
  have hb := len_le b
  unfold ntoaPad target
  cases hl : flags.left with
  | true => simp
  | false =>
    have h1 := padZeros_chars prec 32 b (by omega)
    have h1l : (padZeros prec 32 b).len = max b.len (min prec 32) := by
      rw [NtoaBuf.len, h1, List.length_append, List.length_replicate]
      simp only [NtoaBuf.len] at hb ⊢
      omega
    cases hz : flags.zeropad with
    | false => simpa using h1
    | true =>
      have hw : (if width ≠ 0 ∧ (negative ∨ flags.plus ∨ flags.space) then width - 1 else width) =
          width - (signOf negative flags.plus flags.space).length := by
        rw [signOf_length]
        by_cases hs : negative = true ∨ flags.plus = true ∨ flags.space = true
        · simp only [hs, if_true, and_true]
          by_cases h0 : width = 0
          · simp [h0]
          · simp [h0]
        · simp [hs]
      simp only [Bool.false_eq_true, if_false, if_true, true_and, hw, and_self]
      rw [padZeros_chars _ 32 _ (by omega), h1, h1l, List.append_assoc, List.replicate_append_replicate]
      congr 2
      omega

theorem ntoaPad_width (b : NtoaBuf) (negative : Bool) (prec width : ℕ) (flags : Flags)
    (h : ¬ (flags.left = false ∧ flags.zeropad = true)) :
      (ntoaPad b negative prec width flags).2 = width := by
  unfold ntoaPad
  cases hl : flags.left with
  | true => rfl
  | false =>
    cases hz : flags.zeropad with
    | false => simp
    | true => exact absurd ⟨hl, hz⟩ h

theorem ntoaSign_chars (b : NtoaBuf) (negative : Bool) (flags : Flags) :
    (ntoaSign b negative flags).chars =
      b.chars ++ if b.len < 32 then signOf negative flags.plus flags.space else [] := by
  unfold ntoaSign signOf
  by_cases h : b.len < 32
  · rw [if_pos h, if_pos h]
    split_ifs <;> simp [push_chars h]
  · rw [if_neg h, if_neg h, List.append_nil]

/-- The digits the conversion puts out: at most 32, and no zeros of the precision in a left-justified
field. -/
def ntoaBody (flags : Flags) (negative : Bool) (base prec width v : ℕ) : List UInt8 :=
  bodyOf flags.uppercase (min (if flags.left then 0 else
    target flags.left flags.zeropad (signOf negative flags.plus flags.space) prec width) 32)
    ((digitsFor flags.precision base v).take 32)

/-- **The text of an integer** without `#`. -/
theorem ntoaText_eq {base : ℕ} (hb : 2 ≤ base) (v : ℕ) (negative : Bool) (prec width : ℕ) (flags : Flags)
    (hh : flags.hash = false) :
    ntoaText v negative base prec width flags =
      fieldOf flags.left flags.zeropad width
        (if (ntoaBody flags negative base prec width v).length < 32 then
          signOf negative flags.plus flags.space else [])
        (ntoaBody flags negative base prec width v) := by
  have hflags : (if v = 0 then { flags with hash := false } else flags) = flags := by
    by_cases hv : v = 0
    · rw [if_pos hv, ← hh]
    · rw [if_neg hv]
  unfold ntoaText ntoaBuf
  simp only [hflags]
  set b := if !flags.precision ∨ v ≠ 0 then ntoaDigits flags.uppercase base 32 v .empty
    else .empty with hbdef
  have hbc : b.chars = ((digitsFor flags.precision base v).take 32).map (digitChar flags.uppercase) :=
    buffer_chars hb v flags
  have hpad := ntoaPad_chars b negative prec width flags
  have hhash : ntoaHash (ntoaPad b negative prec width flags).1 base prec
      (ntoaPad b negative prec width flags).2 flags =
      (ntoaPad b negative prec width flags).1 := by
    rw [ntoaHash, hh]
    rfl
  have hrev : (ntoaPad b negative prec width flags).1.chars.reverse =
      ntoaBody flags negative base prec width v := by
    rw [hpad, List.reverse_append, List.reverse_replicate, hbc, ntoaBody, bodyOf, NtoaBuf.len, hbc]
    simp
  have hlen : (ntoaPad b negative prec width flags).1.len =
      (ntoaBody flags negative base prec width v).length := by
    rw [← hrev, List.length_reverse]
    rfl
  have hsign : (signOf negative flags.plus flags.space).reverse =
      signOf negative flags.plus flags.space := by
    unfold signOf
    split_ifs <;> rfl
  have hchars : (ntoaSign (ntoaPad b negative prec width flags).1 negative flags).chars.reverse =
      (if (ntoaBody flags negative base prec width v).length < 32 then
        signOf negative flags.plus flags.space else []) ++
        ntoaBody flags negative base prec width v := by
    rw [ntoaSign_chars, List.reverse_append, hrev, hlen]
    split_ifs
    · rw [hsign]
    · rfl
  rw [hhash, revText, fieldOf, hchars]
  by_cases hz : flags.left = false ∧ flags.zeropad = true
  · rw [if_pos hz, if_pos hz]
  · rw [if_neg hz, if_neg hz, ntoaPad_width _ _ _ _ _ hz]

/-! ### Telling two fields apart -/

/-- A character from `0` on: a digit, as against a space or a sign. -/
def solid (c : UInt8) : Bool := 48 ≤ c.toNat

theorem digitChar_solid (up : Bool) {d : ℕ} (hd : d < 16) : solid (digitChar up d) = true := by
  have h : ∀ (up : Bool) (d : Fin 16), solid (digitChar up d.val) = true := by decide
  exact h up ⟨d, hd⟩

theorem bodyOf_solid (up : Bool) (n : ℕ) {ds : List ℕ} (hd : ∀ d ∈ ds, d < 16) :
    ∀ c ∈ bodyOf up n ds, solid c = true := by
  intro c hc
  rcases List.mem_append.mp hc with hc | hc
  · rw [(List.mem_replicate.mp hc).2]
    rfl
  · obtain ⟨d, hdm, rfl⟩ := List.mem_map.mp hc
    exact digitChar_solid up (hd d (List.mem_reverse.mp hdm))

theorem signOf_solid (negative plus space : Bool) :
    ∀ c ∈ signOf negative plus space, solid c = false := by
  cases negative <;> cases plus <;> cases space <;> decide +kernel

theorem countP_padField (left : Bool) (width : ℕ) (s : List UInt8) :
    (padField left width s).countP solid = s.countP solid := by
  have hsp : ∀ n, (List.replicate n (ch ' ')).countP solid = 0 := by
    intro n
    rw [List.countP_replicate, if_neg (by decide)]
  cases left <;> simp [padField, hsp]

theorem countP_fieldOf (left zeropad : Bool) (width : ℕ) (sign : List UInt8) {body : List UInt8}
    (hb : ∀ c ∈ body, solid c = true) :
    (fieldOf left zeropad width sign body).countP solid = sign.countP solid + body.length := by
  have h : (sign ++ body).countP solid = sign.countP solid + body.length := by
    rw [List.countP_append, List.countP_eq_length.mpr hb]
  unfold fieldOf
  split_ifs
  · exact h
  · rw [countP_padField, h]

theorem fieldOf_drop_iff (left zeropad : Bool) (width : ℕ) {c : UInt8} (hc : solid c = false)
    {body : List UInt8} (hb : ∀ c ∈ body, solid c = true) (hne : body ≠ []) :
    fieldOf left zeropad width [] body = fieldOf left zeropad width [c] body ↔
      c = ch ' ' ∧ left = false ∧ zeropad = false ∧ body.length < width := by
  cases left with
  | true =>
    obtain ⟨d, body, rfl⟩ := List.exists_cons_of_ne_nil hne
    have hd := hb d (List.mem_cons_self ..)
    simp only [fieldOf, padField, Bool.true_eq_false, false_and, if_false, if_true, and_false, iff_false,
      List.nil_append, List.cons_append]
    intro h
    rw [(List.cons.inj h).1, hc] at hd
    cases hd
  | false =>
    cases zeropad with
    | true => simp [fieldOf]
    | false =>
      simp only [fieldOf, padField, Bool.false_eq_true, and_false, if_false, true_and, List.nil_append,
        List.cons_append, List.length_cons]
      by_cases hw : body.length < width
      · have hk : width - body.length = width - (body.length + 1) + 1 := by omega
        rw [hk, List.replicate_succ', List.append_assoc, List.append_cancel_left_eq]
        simp [hw, eq_comm]
      · rw [show width - body.length = 0 by omega, show width - (body.length + 1) = 0 by omega]
        simp [hw]

theorem digitsOf_lt {base : ℕ} (hb : 2 ≤ base) (h16 : base ≤ 16) (v : ℕ) :
    ∀ d ∈ digitsOf base v, d < 16 := by
  unfold digitsOf
  intro d hd
  split_ifs at hd
  · rw [List.mem_singleton.mp hd]
    norm_num
  · exact lt_of_lt_of_le (Nat.digits_lt_base (by omega) hd) h16

theorem digitsFor_lt {base : ℕ} (hb : 2 ≤ base) (h16 : base ≤ 16) (precision : Bool) (v : ℕ) :
    ∀ d ∈ digitsFor precision base v, d < 16 := by
  unfold digitsFor
  split_ifs
  · simp
  · exact digitsOf_lt hb h16 v

theorem ntoaBody_length (flags : Flags) (negative : Bool) (base prec width v : ℕ) :
    (ntoaBody flags negative base prec width v).length =
      max (min (if flags.left then 0 else
        target flags.left flags.zeropad (signOf negative flags.plus flags.space) prec width) 32)
        (min (digitsFor flags.precision base v).length 32) := by
  rw [ntoaBody, bodyOf_length, List.length_take, Nat.min_comm 32]

/-- **When the text of an integer without `#` is the field C prescribes**: the sign, the zeros and the
digits have room in the buffer, and a left-justified field needs no zeros. A space for a sign that is lost
behind 32 digits is made up for by the padding. -/
theorem ntoaText_iso_iff {base : ℕ} (hb : 2 ≤ base) (h16 : base ≤ 16) (v : ℕ) (negative : Bool)
    (prec width : ℕ) {flags : Flags} (hh : flags.hash = false)
      (hz : flags.precision = true → flags.zeropad = false)
    (hp : flags.precision = false → prec = 0) :
    let sign := signOf negative flags.plus flags.space
    let nd := (digitsFor flags.precision base v).length
    let n := max (target flags.left flags.zeropad sign prec width) nd
    ntoaText v negative base prec width flags =
        isoField flags.left flags.zeropad sign flags.uppercase base
          (if flags.precision then some prec else none) width v ↔
      (flags.left = true → prec ≤ nd) ∧ sign.length + n ≤ 32 ∨
        n = 32 ∧ sign = [ch ' '] ∧ flags.left = false ∧ flags.zeropad = false ∧ 32 < width := by
  intro sign nd n
  rw [ntoaText_eq hb v negative prec width flags hh, isoField_eq _ _ _ _ _ _ _ _ _ hz hp]
  set body := bodyOf flags.uppercase (target flags.left flags.zeropad sign prec width)
    (digitsFor flags.precision base v) with hbody
  set body' := ntoaBody flags negative base prec width v with hbody'
  have hlt := digitsFor_lt hb h16 flags.precision v
  have hs : ∀ c ∈ body, solid c = true := bodyOf_solid _ _ hlt
  have hs' : ∀ c ∈ body', solid c = true := bodyOf_solid _ _ fun d hd => hlt d (List.mem_of_mem_take hd)
  have hn : body.length = n := bodyOf_length ..
  have hn' : body'.length =
      max (min (if flags.left then 0 else target flags.left flags.zeropad sign prec width) 32)
      (min nd 32) := ntoaBody_length ..
  have hsl : sign.length ≤ 1 := by
    rw [signOf_length]
    split_ifs <;> omega
  have ht : flags.left = true → target flags.left flags.zeropad sign prec width = prec := by
    intro h
    rw [target, if_neg]
    rw [h]
    simp
  -- the two have the same digits when they have as many
  have hiff : body'.length = n ↔ (flags.left = true → prec ≤ nd) ∧ n ≤ 32 := by
    by_cases hl : flags.left = true
    · have hn1 : n = max prec nd := congrArg (max · nd) (ht hl)
      rw [hn', if_pos hl]
      exact ⟨fun h => ⟨fun _ => by omega, by omega⟩, fun ⟨h, h'⟩ => by have := h hl; omega⟩
    · rw [hn', if_neg hl]
      exact ⟨fun h => ⟨fun h' => absurd h' hl, by omega⟩, fun ⟨_, h'⟩ => by omega⟩
  have hsame : body'.length = n → body' = body := by
    intro h
    obtain ⟨h1, h2⟩ := hiff.mp h
    have hnd : nd ≤ 32 := le_trans (le_max_right _ _) h2
    have htake : (digitsFor flags.precision base v).take 32 = digitsFor flags.precision base v :=
      List.take_of_length_le hnd
    rw [hbody', hbody, ntoaBody, htake]
    cases hl : flags.left with
    | true =>
      have h3 := ht hl
      rw [hl] at h3
      rw [if_pos rfl, h3]
      unfold bodyOf
      have h4 := h1 hl
      rw [show min 0 32 - (digitsFor flags.precision base v).length = 0 by omega,
        show prec - (digitsFor flags.precision base v).length = 0 by omega]
    | false =>
      have h5 : target flags.left flags.zeropad sign prec width ≤ 32 := le_trans (le_max_left _ _) h2
      rw [hl] at h5
      rw [if_neg Bool.false_ne_true, Nat.min_eq_left h5]
  have hcount : fieldOf flags.left flags.zeropad width (if body'.length < 32 then sign else []) body' =
      fieldOf flags.left flags.zeropad width sign body → body'.length = n := by
    intro h
    have h1 := congrArg (List.countP solid) h
    rw [countP_fieldOf _ _ _ _ hs, countP_fieldOf _ _ _ _ hs'] at h1
    have h2 : ∀ s : List UInt8, (∀ c ∈ s, solid c = false) → s.countP solid = 0 := fun s h =>
      List.countP_eq_zero.mpr fun c hc => by simp [h c hc]
    have h3 : sign.countP solid = 0 := h2 sign (signOf_solid _ _ _)
    have h4 : (if body'.length < 32 then sign else []).countP solid = 0 := by
      split_ifs
      · exact h3
      · rfl
    omega
  by_cases hlen : body'.length = n
  · obtain ⟨h1, h2⟩ := hiff.mp hlen
    have hb' := hsame hlen
    by_cases h32 : n < 32
    · rw [hlen, if_pos h32, hb']
      exact iff_of_true rfl (Or.inl ⟨h1, by omega⟩)
    · rw [hlen, if_neg h32, hb']
      have hne : body ≠ [] := by
        intro h
        rw [h] at hn
        simp at hn
        omega
      rcases Nat.eq_zero_or_pos sign.length with h0 | h0
      · rw [List.length_eq_zero_iff.mp h0]
        exact iff_of_true rfl (Or.inl ⟨h1, by simp; omega⟩)
      · obtain ⟨c, hc⟩ := List.length_eq_one_iff.mp (show sign.length = 1 by omega)
        have hcs : solid c = false := signOf_solid negative flags.plus flags.space c (by
          show c ∈ sign
          simp [hc])
        rw [hc, fieldOf_drop_iff _ _ _ hcs hs hne, hn]
        simp only [List.length_singleton, List.cons.injEq, and_true]
        constructor
        · rintro ⟨h3, h4, h5, h6⟩
          exact Or.inr ⟨by omega, h3, h4, h5, by omega⟩
        · rintro (h | ⟨-, h3, h4, h5, h6⟩)
          · omega
          · exact ⟨h3, h4, h5, by omega⟩
  · refine iff_of_false (fun h => hlen (hcount h)) ?_
    rintro (⟨h1, h2⟩ | ⟨h1, -, h2, -⟩)
    · exact hlen (hiff.mpr ⟨h1, by omega⟩)
    · exact hlen (hiff.mpr ⟨fun h => absurd h (by simp [h2]), by omega⟩)

/-! ### The alternate form of hexadecimal numbers -/

/-- `0x` or `0X`. -/
def hexPrefix (up : Bool) : List UInt8 := [ch '0', if up then ch 'X' else ch 'x']

/-- How many digits the alternate form takes back out of the buffer. -/
def hashDrop (precision : Bool) (n width : ℕ) : ℕ :=
  if precision = false ∧ n = width then min n 2 else 0

/-- What there is room for of the prefix behind `n` digits. -/
def prefixRoom (up : Bool) (n : ℕ) : List UInt8 := (hexPrefix up).drop (n + 2 - 32)

theorem pop_len (b : NtoaBuf) : b.pop.len = b.len - 1 := by
  unfold NtoaBuf.len NtoaBuf.pop
  exact List.length_dropLast

theorem hashDrop_le (precision : Bool) (n width : ℕ) : hashDrop precision n width ≤ n := by
  unfold hashDrop
  split_ifs <;> omega

theorem hashStrip_chars (b : NtoaBuf) {prec width : ℕ} {flags : Flags}
    (hp : flags.precision = false → prec = 0) (hb : b.len ≠ 0) :
    (hashStrip b 16 prec width flags).chars.reverse =
      b.chars.reverse.drop (hashDrop flags.precision b.len width) := by
  unfold hashStrip hashDrop
  by_cases hs : flags.precision = false ∧ b.len = width
  · have hc : (!flags.precision) = true ∧ b.len ≠ 0 ∧ (b.len = prec ∨ b.len = width) :=
      ⟨by simp [hs.1], hb, Or.inr hs.2⟩
    rw [if_pos hs, if_pos hc]
    by_cases h1 : b.len = 1
    · rw [if_neg (by rw [pop_len]; omega), NtoaBuf.pop,
        List.tail_reverse.symm.trans (List.drop_one ..).symm, h1]
      rfl
    · rw [if_pos ⟨by rw [pop_len]; omega, rfl⟩, show min b.len 2 = 2 by omega]
      simp only [NtoaBuf.pop]
      rw [← List.tail_reverse, ← List.tail_reverse, ← List.drop_one, ← List.drop_one, List.drop_drop]
  · have hc : ¬ ((!flags.precision) = true ∧ b.len ≠ 0 ∧ (b.len = prec ∨ b.len = width)) := by
      rintro ⟨h1, -, h2 | h2⟩
      · exact hb (h2.trans (hp (by simpa using h1)))
      · exact hs ⟨by simpa using h1, h2⟩
    rw [if_neg hs, if_neg hc, List.drop_zero]

theorem push_full {b : NtoaBuf} (h : ¬ b.len < 32) (c : UInt8) : b.push c = b := dif_neg h

theorem hashPrefix_eq (b : NtoaBuf) (flags : Flags) :
    hashPrefix b 16 flags = (b.push (if flags.uppercase then ch 'X' else ch 'x')).push (ch '0') := by
  unfold hashPrefix
  by_cases h : b.len < 32
  · cases flags.uppercase <;> simp [h]
  · simp [h, push_full]

theorem hashPrefix_chars (b : NtoaBuf) (flags : Flags) :
    (hashPrefix b 16 flags).chars.reverse = prefixRoom flags.uppercase b.len ++ b.chars.reverse := by
  have h32 := len_le b
  rw [hashPrefix_eq]
  unfold prefixRoom hexPrefix
  by_cases h31 : b.len < 31
  · have h2 : b.len < 32 := by omega
    rw [push_chars (by rw [push_len h2]; omega), push_chars h2, show b.len + 2 - 32 = 0 by omega]
    simp
  · by_cases h2 : b.len < 32
    · rw [push_full (by rw [push_len h2]; omega), push_chars h2, show b.len + 2 - 32 = 1 by omega]
      simp
    · rw [push_full h2, push_full h2, show b.len + 2 - 32 = 2 by omega]
      simp

/-- **The text of a hexadecimal number with `#`.** -/
theorem ntoaText_hash {v : ℕ} (hv : v ≠ 0) {prec width : ℕ} {flags : Flags} (hh : flags.hash = true)
    (hs : flags.plus = false ∧ flags.space = false) (hp : flags.precision = false → prec = 0) :
    let body := ntoaBody flags false 16 prec width v
    let k := hashDrop flags.precision body.length width
    ntoaText v false 16 prec width flags =
      fieldOf flags.left flags.zeropad width (prefixRoom flags.uppercase (body.length - k))
        (body.drop k) := by
  intro body k
  unfold ntoaText ntoaBuf
  simp only [if_neg hv]
  set b := if !flags.precision ∨ v ≠ 0 then ntoaDigits flags.uppercase 16 32 v .empty
    else .empty with hbdef
  have hbc : b.chars = ((digitsFor flags.precision 16 v).take 32).map (digitChar flags.uppercase) :=
    buffer_chars (by norm_num) v flags
  obtain ⟨hs1, hs2⟩ := hs
  have hsign : signOf false flags.plus flags.space = [] := by rw [hs1, hs2]; rfl
  have hpad := ntoaPad_chars b false prec width flags
  have hw : (ntoaPad b false prec width flags).2 = width := by
    unfold ntoaPad
    cases flags.left <;> simp [hs1, hs2]
  set b' := (ntoaPad b false prec width flags).1 with hb'
  have hrev : b'.chars.reverse = body := by
    rw [hpad, List.reverse_append, List.reverse_replicate, hbc]
    simp only [body]
    rw [ntoaBody, bodyOf, NtoaBuf.len, hbc]
    simp
  have hlen : b'.len = body.length := by
    rw [← hrev, List.length_reverse]
    rfl
  have hne : b'.len ≠ 0 := by
    have hd : digitsFor flags.precision 16 v = digitsOf 16 v := if_neg fun h => hv h.2
    rw [hlen]
    simp only [body]
    rw [ntoaBody_length, hd, digitsOf_eq (by norm_num)]
    simp
  have hstrip : (hashStrip b' 16 prec width flags).chars.reverse =
      b'.chars.reverse.drop (hashDrop flags.precision b'.len width) := hashStrip_chars b' hp hne
  have hstripLen : (hashStrip b' 16 prec width flags).len = body.length - k := by
    rw [NtoaBuf.len, ← List.length_reverse, hstrip, hrev, hlen, List.length_drop]
  have hchars : (ntoaSign (ntoaHash b' 16 prec width flags) false flags).chars.reverse =
      prefixRoom flags.uppercase (body.length - k) ++ body.drop k := by
    rw [ntoaSign_chars, hsign, ite_self, List.append_nil, ntoaHash, if_pos hh, hashPrefix_chars,
      hstripLen, hstrip, hrev, hlen]
  rw [hw, revText, fieldOf, hchars]

/-- **When the alternate form of a hexadecimal number is the field C prescribes.** The two digits that are
taken back for the prefix are zeros that were put there for it if there are as many; a number that just
fills the width has none. -/
theorem ntoaText_hash_iff {v : ℕ} (hv : v ≠ 0) (h64 : v < 2 ^ 64) (prec width : ℕ) {flags : Flags}
    (hh : flags.hash = true) (hs : flags.plus = false ∧ flags.space = false)
    (hz : flags.precision = true → flags.zeropad = false) (hp : flags.precision = false → prec = 0) :
    let nd := (Nat.digits 16 v).length
    ntoaText v false 16 prec width flags =
        isoField flags.left flags.zeropad (hexPrefix flags.uppercase) flags.uppercase 16
          (if flags.precision then some prec else none) width v ↔
      if flags.precision then (flags.left = true → prec ≤ nd) ∧ prec ≤ 30
      else if flags.left = false ∧ flags.zeropad = true then width ≤ 32 ∧ (width < nd ∨ nd + 2 ≤ width)
      else width ≠ nd := by
  intro nd
  rw [ntoaText_hash hv hh hs hp, isoField_eq _ _ _ _ _ _ _ _ _ hz hp]
  have hnd : nd ≤ 16 := (Nat.digits_length_le_iff (by norm_num) v).mpr (by norm_num at h64 ⊢; exact h64)
  have hnd0 : 0 < nd := List.length_pos_of_ne_nil (Nat.digits_ne_nil_iff_ne_zero.mpr hv)
  have hds : digitsFor flags.precision 16 v = Nat.digits 16 v := by
    rw [digitsFor, if_neg fun h => hv h.2, digitsOf, if_neg hv]
  have hlt : ∀ d ∈ Nat.digits 16 v, d < 16 := fun d hd => Nat.digits_lt_base (by norm_num) hd
  have htake : (Nat.digits 16 v).take 32 = Nat.digits 16 v := List.take_of_length_le (by
    change nd ≤ 32
    omega)
  have hsign : signOf false flags.plus flags.space = [] := by rw [hs.1, hs.2]; rfl
  have hpre : ∀ n, (prefixRoom flags.uppercase n).countP solid =
      (prefixRoom flags.uppercase n).length := by
    intro n
    refine List.countP_eq_length.mpr fun c hc => ?_
    have hc' := List.mem_of_mem_drop hc
    unfold hexPrefix at hc'
    revert hc'
    cases flags.uppercase <;> simp <;> rintro (rfl | rfl) <;> rfl
  have hroom : ∀ n, (prefixRoom flags.uppercase n).length = 2 - (n + 2 - 32) := fun n => List.length_drop
  have hroom30 : ∀ n, n ≤ 30 → prefixRoom flags.uppercase n = hexPrefix flags.uppercase := fun n h => by
    rw [prefixRoom, show n + 2 - 32 = 0 by omega, List.drop_zero]
  set pre := hexPrefix flags.uppercase with hpredef
  set t := target flags.left flags.zeropad pre prec width with ht
  set t' := if flags.left then 0 else target flags.left flags.zeropad [] prec width with ht'
  have hbody : ntoaBody flags false 16 prec width v =
      bodyOf flags.uppercase (min t' 32) (Nat.digits 16 v) := by
    rw [ntoaBody, hds, htake, hsign]
  rw [hbody, hds, bodyOf_length]
  set n₁ := max (min t' 32) nd with hn₁
  set k := hashDrop flags.precision n₁ width with hk
  have hkle : k ≤ n₁ := hashDrop_le ..
  -- the digits of both, counted
  have hcount : fieldOf flags.left flags.zeropad width (prefixRoom flags.uppercase (n₁ - k))
        ((bodyOf flags.uppercase (min t' 32) (Nat.digits 16 v)).drop k) =
      fieldOf flags.left flags.zeropad width pre (bodyOf flags.uppercase t (Nat.digits 16 v)) →
      2 - (n₁ - k + 2 - 32) + (n₁ - k) = 2 + max t nd := by
    intro h
    have h1 := congrArg (List.countP solid) h
    have hb1 : ∀ c ∈ (bodyOf flags.uppercase (min t' 32) (Nat.digits 16 v)).drop k, solid c = true :=
      fun c hc => bodyOf_solid _ _ hlt c (List.mem_of_mem_drop hc)
    rw [countP_fieldOf _ _ _ _ hb1, countP_fieldOf _ _ _ _ (bodyOf_solid _ _ hlt), hpre, hroom,
      List.length_drop, bodyOf_length, bodyOf_length, show pre.countP solid = 2 by
        rw [← hroom30 0 (by norm_num), hpre, hroom]] at h1
    exact h1
  have hsame : n₁ - k ≤ 30 → (bodyOf flags.uppercase (min t' 32) (Nat.digits 16 v)).drop k =
        bodyOf flags.uppercase t (Nat.digits 16 v) →
      fieldOf flags.left flags.zeropad width (prefixRoom flags.uppercase (n₁ - k))
        ((bodyOf flags.uppercase (min t' 32) (Nat.digits 16 v)).drop k) =
      fieldOf flags.left flags.zeropad width pre (bodyOf flags.uppercase t (Nat.digits 16 v)) := by
    intro h30 hb
    rw [hroom30 _ h30, hb]
  have hrep : ∀ i j : ℕ, i - nd = j - nd →
      bodyOf flags.uppercase i (Nat.digits 16 v) = bodyOf flags.uppercase j (Nat.digits 16 v) := by
    intro i j h
    unfold bodyOf
    rw [show i - (Nat.digits 16 v).length = j - (Nat.digits 16 v).length from h]
  have hdrop : ∀ i j : ℕ, i - nd = j - nd + k →
      (bodyOf flags.uppercase i (Nat.digits 16 v)).drop k =
      bodyOf flags.uppercase j (Nat.digits 16 v) := by
    intro i j h
    unfold bodyOf
    rw [show i - (Nat.digits 16 v).length = j - (Nat.digits 16 v).length + k from h,
      List.drop_append_of_le_length (by simp), List.drop_replicate, Nat.add_sub_cancel]
  by_cases hprec : flags.precision = true
  · -- with a precision nothing is taken back
    have hk0 : k = 0 := if_neg (by simp [hprec])
    have htp : t = prec := if_neg (by simp [hz hprec])
    rw [if_pos hprec]
    by_cases hl : flags.left = true
    · have ht0 : t' = 0 := if_pos hl
      constructor
      · intro h
        have := hcount h
        exact ⟨fun _ => by omega, by omega⟩
      · rintro ⟨h1, h2⟩
        have := h1 hl
        exact hsame (by omega) (hdrop _ _ (by omega))
    · have htp' : t' = prec := by
        rw [ht', if_neg hl]
        exact if_neg (by simp [hz hprec])
      constructor
      · intro h
        have := hcount h
        exact ⟨fun h => absurd h hl, by omega⟩
      · rintro ⟨-, h2⟩
        exact hsame (by omega) (hdrop _ _ (by omega))
  · have hprec' : flags.precision = false := by simpa using hprec
    have hp0 := hp hprec'
    have hkw : k = if n₁ = width then min n₁ 2 else 0 := by
      rw [hk, hashDrop]
      exact if_congr (by simp [hprec']) rfl rfl
    rw [if_neg hprec]
    by_cases hzl : flags.left = false ∧ flags.zeropad = true
    · have htw : t = max 0 (width - 2) := by
        rw [ht, target, if_pos hzl, hp0]
        rfl
      have htw' : t' = max 0 width := by
        rw [ht', if_neg (by simp [hzl.1]), target, if_pos hzl, hp0]
        rfl
      rw [if_pos hzl]
      constructor
      · intro h
        have := hcount h
        split_ifs at hkw <;> omega
      · rintro ⟨h1, h2⟩
        by_cases hw : n₁ = width
        · rw [if_pos hw] at hkw
          exact hsame (by omega) (hdrop _ _ (by omega))
        · rw [if_neg hw] at hkw
          exact hsame (by omega) (hdrop _ _ (by omega))
    · have ht0 : t = 0 := by
        rw [ht, target, if_neg hzl, hp0]
      have ht0' : t' = 0 := by
        rw [ht', target, if_neg hzl, hp0, ite_self]
      rw [if_neg hzl]
      constructor
      · intro h
        have := hcount h
        split_ifs at hkw <;> omega
      · intro h
        rw [if_neg (by omega)] at hkw
        exact hsame (by omega) (hdrop _ _ (by omega))

/-! ### Reading the digits back -/

/-- The digit a character stands for. -/
def digitVal (c : UInt8) : ℕ :=
  if c.toNat < 58 then c.toNat - 48 else if c.toNat < 97 then c.toNat - 55 else c.toNat - 87

/-- The number the digits stand for, highest first. -/
def readDigits (base : ℕ) (cs : List UInt8) : ℕ := cs.foldl (fun n c => n * base + digitVal c) 0

theorem digitVal_digitChar (up : Bool) {d : ℕ} (hd : d < 16) : digitVal (digitChar up d) = d := by
  have h : ∀ (up : Bool) (d : Fin 16), digitVal (digitChar up d.val) = d.val := by decide
  exact h up ⟨d, hd⟩

theorem foldl_zeros (base n : ℕ) :
    (List.replicate n (ch '0')).foldl (fun n c => n * base + digitVal c) 0 = 0 := by
  induction n with
  | zero => rfl
  | succ n ih =>
    rw [List.replicate_succ, List.foldl_cons, Nat.zero_mul]
    exact ih

theorem readDigits_bodyOf (base : ℕ) (up : Bool) (n : ℕ) {ds : List ℕ} (hd : ∀ d ∈ ds, d < 16) :
    readDigits base (bodyOf up n ds) = Nat.ofDigits base ds := by
  unfold readDigits bodyOf
  rw [List.foldl_append, foldl_zeros, List.foldl_map, List.foldl_reverse, Nat.ofDigits_eq_foldr]
  induction ds with
  | nil => rfl
  | cons d ds ih =>
    have h := ih fun e he => hd e (List.mem_cons_of_mem _ he)
    simp only [List.foldr_cons, Nat.cast_id] at h ⊢
    rw [h, digitVal_digitChar up (hd d (List.mem_cons_self ..))]
    ring

/-- **The digits that are put out stand for the number**, or for its last 32 digits. -/
theorem readDigits_ntoaBody {base : ℕ} (hb : 2 ≤ base) (h16 : base ≤ 16) (flags : Flags) (negative : Bool)
    (prec width v : ℕ) : readDigits base (ntoaBody flags negative base prec width v) = v % base ^ 32 := by
  have hlt := digitsFor_lt hb h16 flags.precision v
  have hd : Nat.ofDigits base ((digitsFor flags.precision base v).take 32) =
      Nat.ofDigits base ((Nat.digits base v).take 32) := by
    unfold digitsFor digitsOf
    by_cases hv : v = 0
    · cases flags.precision <;> simp [hv]
    · simp [hv]
  rw [ntoaBody, readDigits_bodyOf _ _ _ fun d hd => hlt d (List.mem_of_mem_take hd), hd]
  exact (Nat.self_mod_pow_eq_ofDigits_take 32 v hb).symm

end FusionCore.Libk.Kprintf
