import FusionCore.Libk.Kprintf

/-! # What is put out (`libk/kprintf/kprintf.c`)

Every conversion puts out a text that depends neither on the output function nor on what it writes to:
`outRev_eq`, `ntoaLong_eq`, `intConversion_eq`, `charConversion_eq`, `strConversion_eq`,
`ptrConversion_eq`, with the texts `revText`, `ntoaText`, `intText`, `charText`, `strText`,
`ptrText`. `specifier_eq` says so of the switch over the conversion characters: `convText` is what it
puts out, and it is put out one character after the other at the next indices (`puts`).

What `puts` does through each output function: a buffer receives the characters below `maxlen`
(`puts_outBuffer`), a function those that are not zero (`puts_outFct`), and nobody any through `_out_null`
(`puts_outNull`). -/

namespace FusionCore.Libk.Kprintf

open FusionCore.Lib.ByteMem

/-! ### Characters one after the other -/

section
variable {σ : Type} (out : Out σ) (maxlen : ℕ)

@[simp] theorem put_fst (c : UInt8) (p : ℕ × σ) : (put out maxlen c p).1 = p.1 + 1 := rfl

@[simp] theorem puts_nil (p : ℕ × σ) : puts out maxlen [] p = p := rfl

@[simp] theorem puts_cons (c : UInt8) (cs : List UInt8) (p : ℕ × σ) :
    puts out maxlen (c :: cs) p = puts out maxlen cs (put out maxlen c p) := rfl

theorem puts_append (cs cs' : List UInt8) (p : ℕ × σ) :
    puts out maxlen (cs ++ cs') p = puts out maxlen cs' (puts out maxlen cs p) := by
  induction cs generalizing p with
  | nil => rfl
  | cons c cs ih => exact ih _

@[simp] theorem puts_fst (cs : List UInt8) (p : ℕ × σ) : (puts out maxlen cs p).1 = p.1 + cs.length := by
  induction cs generalizing p with
  | nil => rfl
  | cons c cs ih =>
    rw [puts_cons, ih, List.length_cons, put]
    omega

theorem spaces_eq (n : ℕ) (p : ℕ × σ) :
    spaces out maxlen n p = puts out maxlen (List.replicate n (ch ' ')) p := by
  induction n generalizing p with
  | zero => rfl
  | succ n ih => exact ih _

end

theorem puts_outNull {σ : Type} (maxlen : ℕ) (cs : List UInt8) (p : ℕ × σ) :
    puts outNull maxlen cs p = (p.1 + cs.length, p.2) := by
  induction cs generalizing p with
  | nil => rfl
  | cons c cs ih =>
    rw [puts_cons, ih, List.length_cons, put]
    exact Prod.ext (by simp only; omega) rfl

theorem puts_outFct {σ : Type} (fct : UInt8 → σ → σ) (maxlen : ℕ) (cs : List UInt8) (p : ℕ × σ) :
    (puts (outFct fct) maxlen cs p).2 = (cs.filter (· ≠ 0)).foldl (fun s c => fct c s) p.2 := by
  induction cs generalizing p with
  | nil => rfl
  | cons c cs ih =>
    rw [puts_cons, ih]
    by_cases hc : c = 0
    · simp [put, outFct, hc]
    · simp [put, outFct, hc]

theorem put_outBuffer (buffer maxlen : ℕ) (c : UInt8) (p : ℕ × Mem) (a : ℕ) :
    (put (outBuffer buffer) maxlen c p).2 a = if a = buffer + p.1 ∧ p.1 < maxlen then c else p.2 a := by
  unfold put outBuffer
  by_cases hm : p.1 < maxlen
  · rw [if_pos hm]
    exact (Function.update_apply ..).trans (if_congr (by simp [hm]) rfl rfl)
  · rw [if_neg hm, if_neg fun h => hm h.2]

theorem puts_outBuffer (buffer maxlen : ℕ) (cs : List UInt8) (p : ℕ × Mem) (a : ℕ) :
    (puts (outBuffer buffer) maxlen cs p).2 a =
      if buffer + p.1 ≤ a ∧ a < buffer + min maxlen (p.1 + cs.length) then
        cs.getD (a - (buffer + p.1)) 0 else p.2 a := by
  induction cs generalizing p with
  | nil =>
    rw [puts_nil, if_neg]
    simp only [List.length_nil]
    omega
  | cons c cs ih =>
    rw [puts_cons, ih, put_outBuffer, put_fst, List.length_cons]
    by_cases ha : buffer + p.1 + 1 ≤ a
    · have hsub : a - (buffer + p.1) = a - (buffer + (p.1 + 1)) + 1 := by omega
      have hold : ¬ (a = buffer + p.1 ∧ p.1 < maxlen) := by omega
      rw [if_neg hold, hsub, List.getD_cons_succ]
      exact if_congr (by omega) rfl rfl
    · have hin : ¬ (buffer + (p.1 + 1) ≤ a ∧ a < buffer + min maxlen (p.1 + 1 + cs.length)) := by omega
      rw [if_neg hin]
      by_cases hb : a = buffer + p.1 ∧ p.1 < maxlen
      · rw [if_pos hb, if_pos (by omega), hb.1, Nat.sub_self, List.getD_cons_zero]
      · rw [if_neg hb, if_neg (by omega)]

/-! ### The texts of the conversions -/

/-- A text in a field of the given width. -/
def padField (left : Bool) (width : ℕ) (s : List UInt8) : List UInt8 :=
  if left then s ++ List.replicate (width - s.length) (ch ' ')
  else List.replicate (width - s.length) (ch ' ') ++ s

/-- The text of `_out_rev`. -/
def revText (buf : List UInt8) (width : ℕ) (flags : Flags) : List UInt8 :=
  if flags.left = false ∧ flags.zeropad = true then buf.reverse else padField flags.left width buf.reverse

/-- The conversion buffer when `_out_rev` is called, with the width left. -/
def ntoaBuf (value : ℕ) (negative : Bool) (base prec width : ℕ) (flags : Flags) : NtoaBuf × ℕ :=
  let flags := if value = 0 then { flags with hash := false } else flags
  let buf := if !flags.precision ∨ value ≠ 0 then
    ntoaDigits flags.uppercase base 32 value .empty else .empty
  let (buf, width) := ntoaPad buf negative prec width flags
  (ntoaSign (ntoaHash buf base prec width flags) negative flags, width)

/-- The text of `_ntoa_long`. -/
def ntoaText (value : ℕ) (negative : Bool) (base prec width : ℕ) (flags : Flags) : List UInt8 :=
  let (buf, width) := ntoaBuf value negative base prec width flags
  revText buf.chars width flags

/-- The text of an integer conversion. -/
def intText (c : UInt8) (f : Fields) (a : Arg) : List UInt8 :=
  let flags := intFlags c f.flags
  if c = ch 'i' ∨ c = ch 'd' then
    ntoaText (signedValue flags a).natAbs (decide (signedValue flags a < 0)) (baseOf c)
      f.precision f.width flags
  else ntoaText (unsignedValue flags a) false (baseOf c) f.precision f.width flags

/-- The text of `%c`. -/
def charText (f : Fields) (a : Arg) : List UInt8 :=
  padField f.flags.left f.width [UInt8.ofBitVec (a.word.setWidth 8)]

/-- The text of `%s`; the field is as wide as if the length were an `unsigned int`. -/
def strText (f : Fields) (str : List UInt8) : List UInt8 :=
  let l := strnlenS str (if f.precision ≠ 0 then f.precision else 2 ^ 64 - 1)
  let l := if f.flags.precision then (if l < f.precision then l else f.precision) else l
  let text := if f.flags.precision then str.take f.precision else str
  if f.flags.left then text ++ List.replicate (f.width - l) (ch ' ')
  else List.replicate (f.width - l) (ch ' ') ++ text

/-- The text of `%p`. -/
def ptrText (f : Fields) (a : Arg) : List UInt8 :=
  ntoaText a.word.toNat false 16 f.precision 16 { f.flags with zeropad := true, uppercase := true }

/-- The text of the conversion `c`, and the arguments it leaves. -/
def convText (c : UInt8) (f : Fields) : Except Err (List UInt8 × List Arg) :=
  if c = ch 'd' ∨ c = ch 'i' ∨ c = ch 'u' ∨ c = ch 'x' ∨ c = ch 'X' ∨ c = ch 'o' ∨ c = ch 'b' then do
    let (a, va) ← vaArg f.va
    .ok (intText c f a, va)
  else if c = ch 'c' then do
    let (a, va) ← vaArg f.va
    .ok (charText f a, va)
  else if c = ch 's' then do
    let (a, va) ← vaArg f.va
    match a.str with
    | none => .error .noString
    | some str => .ok (strText f str, va)
  else if c = ch 'p' then do
    let (a, va) ← vaArg f.va
    .ok (ptrText f a, va)
  else if c = ch '%' then .ok ([ch '%'], f.va)
  else .ok ([c], f.va)

/-! ### They are what is put out -/

section
variable {σ : Type} (out : Out σ) (maxlen : ℕ)

theorem outRev_eq (buf : List UInt8) (width : ℕ) (flags : Flags) (p : ℕ × σ) :
    outRev out maxlen buf width flags p = puts out maxlen (revText buf width flags) p := by
  rcases hl : flags.left with _ | _ <;> rcases hz : flags.zeropad with _ | _ <;>
    simp [outRev, revText, padField, hl, hz, spaces_eq, puts_append]

theorem ntoaLong_eq (value : ℕ) (negative : Bool) (base prec width : ℕ) (flags : Flags) (p : ℕ × σ) :
    ntoaLong out maxlen value negative base prec width flags p =
      puts out maxlen (ntoaText value negative base prec width flags) p := by
  unfold ntoaLong ntoaFormat ntoaText ntoaBuf
  simp only [outRev_eq]
  by_cases hv : value = 0
  · simp only [hv, if_true]
    rfl
  · simp only [hv, if_false]

theorem intConversion_eq (c : UInt8) (f : Fields) (a : Arg) (p : ℕ × σ) :
    intConversion out maxlen c f a p = puts out maxlen (intText c f a) p := by
  unfold intConversion intText
  simp only [ntoaLongLong, ntoaLong_eq, ite_self]
  by_cases hc : c = ch 'i' ∨ c = ch 'd'
  · rw [if_pos hc, if_pos hc]
  · rw [if_neg hc, if_neg hc]

theorem charConversion_eq (f : Fields) (a : Arg) (p : ℕ × σ) :
    charConversion out maxlen f a p = puts out maxlen (charText f a) p := by
  rcases hl : f.flags.left with _ | _ <;>
    simp [charConversion, charText, padField, hl, spaces_eq, puts_append]

theorem strConversion_eq (f : Fields) (str : List UInt8) (p : ℕ × σ) :
    strConversion out maxlen f str p = puts out maxlen (strText f str) p := by
  rcases hl : f.flags.left with _ | _ <;>
    simp [strConversion, strText, hl, spaces_eq, puts_append]

theorem ptrConversion_eq (f : Fields) (a : Arg) (p : ℕ × σ) :
    ptrConversion out maxlen f a p = puts out maxlen (ptrText f a) p := ntoaLong_eq ..

/-- **The switch puts out the text of its conversion.** -/
theorem specifier_eq (f : Fields) {c : UInt8} {format : List UInt8}
    (hf : f.format = c :: format) (p : ℕ × σ) :
    specifier out maxlen f p =
      (convText c f).map fun r => (format, r.2, puts out maxlen r.1 p) := by
  unfold specifier convText
  rw [hf]
  simp only
  cases hv : vaArg f.va with
  | error e =>
    split_ifs <;> rfl
  | ok r =>
    obtain ⟨a, va⟩ := r
    split_ifs
    · exact congrArg (fun q => Except.ok (format, va, q)) (intConversion_eq out maxlen c f a p)
    · exact congrArg (fun q => Except.ok (format, va, q)) (charConversion_eq out maxlen f a p)
    · cases hs : a.str with
      | none => simp only [bind, Except.bind, hs, Except.map]
      | some str =>
        simp only [bind, Except.bind, hs, Except.map]
        rw [strConversion_eq]
    · exact congrArg (fun q => Except.ok (format, va, q)) (ptrConversion_eq out maxlen f a p)
    · rfl
    · rfl

end

end FusionCore.Libk.Kprintf
