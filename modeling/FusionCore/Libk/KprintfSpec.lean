import FusionCore.Libk.KprintfInt

/-! # What `_vsnprintf` and its callers do (`libk/kprintf/kprintf.c`)

`Prints format va text` says that the format is a sequence of items with the text `text` over these
arguments.

* `vsnprintf_ok_iff`: a call returns if and only if its format prints a text, and then it has passed
  the text to the output function;
* `vsnprintfBuffer_ok_iff`: a buffer holds the text cut to `count - 1` characters, a zero behind it, and
  nothing else is written (`snprintf_contract`); `printf_family`: the callers differ in nothing else;
* `directive_readable`: the number can be read back from the text of an integer directive. -/

namespace FusionCore.Libk.Kprintf

open FusionCore.Lib.ByteMem

/-! ### Calls -/

/-- The format is a sequence of items whose text over the arguments is `text`. -/
def Prints (format : List UInt8) (va : List Arg) (text : List UInt8) : Prop :=
  ∃ is va', (∀ i ∈ is, i.WF) ∧ format = formatOf is ∧ render is va = .ok (text, va')

theorem puts_collect (text : List UInt8) (maxlen : ℕ) (p : ℕ × List UInt8) :
    (puts (fun c _ _ s => s ++ [c]) maxlen text p).2 = p.2 ++ text := by
  induction text generalizing p with
  | nil => simp
  | cons c text ih =>
    rw [puts_cons, ih]
    simp [put]

theorem prints_iff {format : List UInt8} {va : List Arg} {text : List UInt8} :
    Prints format va text ↔ ∃ va' idx,
      vsnprintfLoop (fun c _ _ s => s ++ [c]) 0 format.length format va (0, []) =
      .ok (va', (idx, text)) := by
  constructor
  · rintro ⟨is, va', hw, hf, hr⟩
    refine ⟨va', 0 + text.length, (vsnprintfLoop_ok_iff ..).mpr ⟨is, text, hw, hf, hr, ?_⟩⟩
    exact Prod.ext (by simp) (by rw [puts_collect]; rfl)
  · rintro ⟨va', idx, h⟩
    obtain ⟨is, text', hw, hf, hr, hp⟩ := (vsnprintfLoop_ok_iff ..).mp h
    have := congrArg Prod.snd hp
    rw [puts_collect] at this
    rw [show text = text' from this]
    exact ⟨is, va', hw, hf, hr⟩

/-- A text put out, with the terminator, and the number returned. -/
def finish {σ : Type} (out : Out σ) (maxlen : ℕ) (text : List UInt8) (s : σ) : σ × ℤ :=
  (out 0 (if text.length < maxlen then text.length else (maxlen + 2 ^ 64 - 1) % 2 ^ 64) maxlen
    (puts out maxlen text (0, s)).2, (BitVec.ofNat 32 text.length).toInt)

/-- **A call returns if and only if its format prints a text**, and the text is all it puts out,
whatever the output function does with it. -/
theorem vsnprintf_ok_iff {σ : Type} (out : Out σ) (buffer maxlen : ℕ) (format : List UInt8)
    (va : List Arg) (s : σ) (r : σ × ℤ) :
    vsnprintf out buffer maxlen format va s = .ok r ↔
      ∃ text, Prints format va text ∧ r = finish (if buffer = 0 then outNull else out) maxlen text s := by
  unfold vsnprintf
  set out' := if buffer = 0 then outNull else out
  have key := vsnprintfLoop_ok_iff out' maxlen format va
  constructor
  · intro h
    cases hl : vsnprintfLoop out' maxlen format.length format va (0, s) with
    | error e =>
      simp only [hl, bind, Except.bind] at h
      cases h
    | ok q =>
      obtain ⟨is, text, hw, hf, hr, hp⟩ := (key q.1 (0, s) q.2).mp hl
      simp only [hl, bind, Except.bind, hp] at h
      refine ⟨text, ⟨is, q.1, hw, hf, hr⟩, (Except.ok.inj h).symm.trans ?_⟩
      simp only [finish, puts_fst, Nat.zero_add]
  · rintro ⟨text, ⟨is, va', hw, hf, hr⟩, rfl⟩
    have hl := (key va' (0, s) _).mpr ⟨is, text, hw, hf, hr, rfl⟩
    simp only [hl, bind, Except.bind, finish, puts_fst, Nat.zero_add]

/-- Memory with a text in a buffer of `count` characters. -/
def written (buffer count : ℕ) (text : List UInt8) (m : Mem) : Mem := fun a =>
  if buffer ≤ a ∧ a < buffer + min (count - 1) text.length then text.getD (a - buffer) 0
  else if count ≠ 0 ∧ a = buffer + min (count - 1) text.length then 0
  else m a

theorem finish_outBuffer (buffer count : ℕ) (hc : count < 2 ^ 64) (text : List UInt8) (m : Mem) :
    finish (outBuffer buffer) count text m =
      (written buffer count text m, (BitVec.ofNat 32 text.length).toInt) := by
  refine Prod.ext (funext fun a => ?_) rfl
  have hp := puts_outBuffer buffer count text (0, m) a
  simp only [Nat.zero_add, Nat.add_zero] at hp
  simp only [finish, written, outBuffer]
  by_cases h0 : count = 0
  · subst h0
    have h1 : ¬ (buffer ≤ a ∧ a < buffer + min 0 text.length) := by omega
    have h2 : ¬ (buffer ≤ a ∧ a < buffer + min (0 - 1) text.length) := by omega
    rw [if_neg h1] at hp
    rw [if_neg (Nat.not_lt_zero _), if_neg h2, if_neg fun h => h.1 rfl]
    exact hp
  · have hidx : (if text.length < count then text.length else (count + 2 ^ 64 - 1) % 2 ^ 64) =
        min (count - 1) text.length := by
      by_cases hl : text.length < count
      · rw [if_pos hl]
        omega
      · rw [if_neg hl]
        omega
    rw [hidx, if_pos (by omega)]
    by_cases ha : a = buffer + min (count - 1) text.length
    · rw [ha, if_neg (by omega), if_pos ⟨h0, rfl⟩]
      exact Function.update_self ..
    · rw [if_neg (show ¬ (count ≠ 0 ∧ a = buffer + min (count - 1) text.length) from fun h => ha h.2)]
      refine (Function.update_of_ne ha ..).trans (hp.trans ?_)
      exact if_congr (by omega) rfl rfl

/-- **The buffer after `vsnprintf_`.** -/
theorem vsnprintfBuffer_ok_iff {buffer count : ℕ} (hb : buffer ≠ 0) (hc : count < 2 ^ 64)
    (format : List UInt8) (va : List Arg) (m : Mem) (r : Mem × ℤ) :
    vsnprintfBuffer buffer count format va m = .ok r ↔
      ∃ text, Prints format va text ∧
      r = (written buffer count text m, (BitVec.ofNat 32 text.length).toInt) := by
  rw [vsnprintfBuffer, vsnprintf_ok_iff, if_neg hb]
  simp only [finish_outBuffer buffer count hc]

/-- **`snprintf_`** returns exactly on the formats that print a text. It stays within the `count`
characters of the buffer, leaves a terminated prefix of the text there, and returns the length of the
whole text. -/
theorem snprintf_contract {buffer count : ℕ} (hb : buffer ≠ 0) (hc : count < 2 ^ 64) (format : List UInt8)
    (va : List Arg) (m : Mem) :
    ((∃ r, vsnprintfBuffer buffer count format va m = .ok r) ↔ ∃ text, Prints format va text) ∧
    ∀ m' n, vsnprintfBuffer buffer count format va m = .ok (m', n) → ∃ text, Prints format va text ∧
      (∀ a ∉ Set.Ico buffer (buffer + count), m' a = m a) ∧
      (0 < count → (∀ i < min (count - 1) text.length, m' (buffer + i) = text.getD i 0) ∧
        m' (buffer + min (count - 1) text.length) = 0) ∧
      (text.length < 2 ^ 31 → n = text.length) := by
  have hiff := fun r => vsnprintfBuffer_ok_iff hb hc format va m r
  refine ⟨⟨fun ⟨r, h⟩ => ?_, fun ⟨text, h⟩ => ⟨_, (hiff _).mpr ⟨text, h, rfl⟩⟩⟩, fun m' n h => ?_⟩
  · obtain ⟨text, ht, -⟩ := (hiff r).mp h
    exact ⟨text, ht⟩
  · obtain ⟨text, ht, he⟩ := (hiff _).mp h
    obtain ⟨rfl, rfl⟩ := Prod.mk.inj he
    refine ⟨text, ht, fun a ha => ?_, fun hpos => ⟨fun i hi => ?_, ?_⟩, fun hlen => ?_⟩
    · rw [Set.mem_Ico] at ha
      rw [written, if_neg (by omega), if_neg (by omega)]
    · rw [written, if_pos (by omega), Nat.add_sub_cancel_left]
    · rw [written, if_neg (by omega), if_pos ⟨by omega, rfl⟩]
    · have hnat : (BitVec.ofNat 32 text.length).toNat = text.length := by
        rw [BitVec.toNat_ofNat]
        omega
      rw [BitVec.toInt_eq_toNat_cond, hnat, if_pos (by omega)]

/-- Three characters of `x=%d`, which needs six. -/
theorem snprintf_contract_cut : ∃ m' n,
    vsnprintfBuffer 0x1000 4 (str "x=%d") [⟨1234#64, none⟩] (fun _ => 7) = .ok (m', n) ∧
    m' 0x1004 = 7 := by
  have hb : 0x1000 ≠ 0 := by decide
  have hlt : 4 < 2 ^ 64 := by norm_num
  have hprints : ∃ text, Prints (str "x=%d") [⟨1234#64, none⟩] text :=
    ⟨_, prints_iff.mpr ⟨_, _, rfl⟩⟩
  obtain ⟨h1, h2⟩ := snprintf_contract hb hlt (str "x=%d") [⟨1234#64, none⟩]
    fun _ => 7
  obtain ⟨⟨m', n⟩, h⟩ := h1.mpr hprints
  obtain ⟨-, -, hout, -⟩ := h2 m' n h
  exact ⟨m', n, h, hout 0x1004 (by simp)⟩

/-- **The callers of `_vsnprintf`** return on the same formats, with the same number: a buffer gets
the text, a NULL buffer nothing, and a function its characters in order, but no zero. -/
theorem printf_family (format : List UInt8) (va : List Arg) :
    (∀ text, Prints format va text →
      (∀ (buffer count : ℕ) (m : Mem), buffer ≠ 0 → count < 2 ^ 64 →
        vsnprintfBuffer buffer count format va m =
          .ok (written buffer count text m, (BitVec.ofNat 32 text.length).toInt)) ∧
      (∀ (count : ℕ) (m : Mem), vsnprintfBuffer 0 count format va m =
        .ok (m, (BitVec.ofNat 32 text.length).toInt)) ∧
      ∀ {σ : Type} (fct : UInt8 → σ → σ) (outFctWrap : ℕ) (s : σ), outFctWrap ≠ 0 →
        fctprintf fct outFctWrap format va s =
          .ok ((text.filter (· ≠ 0)).foldl (fun s c => fct c s) s, (BitVec.ofNat 32 text.length).toInt)) ∧
    ((¬ ∃ text, Prints format va text) →
      (∀ (buffer count : ℕ) (m : Mem) r, vsnprintfBuffer buffer count format va m ≠ .ok r) ∧
      ∀ {σ : Type} (fct : UInt8 → σ → σ) (outFctWrap : ℕ) (s : σ) r,
        fctprintf fct outFctWrap format va s ≠ .ok r) := by
  refine ⟨fun text ht => ⟨fun buffer count m hb hc => ?_, fun count m => ?_, fun fct wrap s hw => ?_⟩,
    fun hno => ⟨fun buffer count m r h => ?_, fun fct wrap s r h => ?_⟩⟩
  · exact (vsnprintfBuffer_ok_iff hb hc format va m _).mpr ⟨text, ht, rfl⟩
  · refine (vsnprintf_ok_iff (outBuffer 0) 0 count format va m _).mpr ⟨text, ht, ?_⟩
    rw [if_pos rfl, finish, puts_outNull]
    rfl
  · refine (vsnprintf_ok_iff (outFct fct) wrap _ format va s _).mpr ⟨text, ht, ?_⟩
    rw [if_neg hw, finish, puts_outFct]
    rfl
  · obtain ⟨text, ht, -⟩ := (vsnprintf_ok_iff _ _ _ _ _ _ _).mp h
    exact hno ⟨text, ht⟩
  · obtain ⟨text, ht, -⟩ := (vsnprintf_ok_iff _ _ _ _ _ _ _).mp h
    exact hno ⟨text, ht⟩

/-- A function that keeps the characters gets the text of `50%%`. -/
theorem printf_family_percent : ∃ n, fctprintf (fun c s => s ++ [c]) 0x1000 (str "50%%") [] [] =
    .ok (str "50%", n) := by
  have hprints : Prints (str "50%%") [] (str "50%") := prints_iff.mpr ⟨_, _, rfl⟩
  obtain ⟨-, -, h⟩ := (printf_family (str "50%%") []).1 _ hprints
  exact ⟨_, (h (fun c s => s ++ [c]) 0x1000 [] (by decide)).trans rfl⟩

/-! ### Integer conversions of a directive -/

/-- The letters of the integer conversions. -/
def IntConv (c : UInt8) : Prop :=
  c = ch 'd' ∨ c = ch 'i' ∨ c = ch 'u' ∨ c = ch 'x' ∨ c = ch 'X' ∨ c = ch 'o' ∨ c = ch 'b'

instance (c : UInt8) : Decidable (IntConv c) := by unfold IntConv; infer_instance

/-- The conversion takes a signed number. -/
def isSigned (c : UInt8) : Bool := c = ch 'i' ∨ c = ch 'd'

/-- The number without its sign. -/
def magnitude (c : UInt8) (f : Fields) (a : Arg) : ℕ :=
  if isSigned c then (signedValue f.flags a).natAbs else unsignedValue f.flags a

/-- The number is below zero. -/
def isNegative (c : UInt8) (f : Fields) (a : Arg) : Bool :=
  isSigned c && decide (signedValue f.flags a < 0)

theorem intFlags_eq (c : UInt8) (fs : Flags) : intFlags c fs =
    { fs with
      zeropad := fs.zeropad && !fs.precision
      plus := fs.plus && isSigned c
      space := fs.space && isSigned c
      hash := fs.hash && decide (baseOf c ≠ 10)
      uppercase := fs.uppercase || decide (c = ch 'X') } := by
  have hs : (c ≠ ch 'i' ∧ c ≠ ch 'd') ↔ isSigned c = false := by simp [isSigned]
  unfold intFlags
  simp only [hs]
  generalize hx : decide (c = ch 'X') = isX
  generalize hd : decide (baseOf c ≠ 10) = notDec
  have hx' : c = ch 'X' ↔ isX = true := by rw [← hx, decide_eq_true_eq]
  have hd' : baseOf c = 10 ↔ notDec = false := by rw [← hd, decide_eq_false_iff_not, not_not]
  simp only [hx', hd']
  obtain ⟨zeropad, left, plus, space, hash, uppercase, char, short, long, longLong, precision⟩ := fs
  cases isSigned c <;> cases notDec <;> cases isX <;> cases precision <;> simp

/-- The flags as an integer conversion uses them. -/
theorem intFlags_spec (c : UInt8) (fs : Flags) :
    let fs' := intFlags c fs
    fs'.left = fs.left ∧ fs'.precision = fs.precision ∧ fs'.zeropad = (fs.zeropad && !fs.precision) ∧
      fs'.hash = (fs.hash && decide (baseOf c ≠ 10)) ∧
      fs'.uppercase = (fs.uppercase || decide (c = ch 'X')) ∧
      fs'.plus = (fs.plus && isSigned c) ∧ fs'.space = (fs.space && isSigned c) ∧
      (∀ a, signedValue fs' a = signedValue fs a) ∧ ∀ a, unsignedValue fs' a = unsignedValue fs a := by
  intro fs'
  rw [show fs' = _ from intFlags_eq c fs]
  exact ⟨rfl, rfl, rfl, rfl, rfl, rfl, rfl, fun _ => rfl, fun _ => rfl⟩

theorem intText_eq (c : UInt8) (f : Fields) (a : Arg) :
    intText c f a = ntoaText (magnitude c f a) (isNegative c f a) (baseOf c) f.precision f.width
      (intFlags c f.flags) := by
  obtain ⟨-, -, -, -, -, -, -, h8, h9⟩ := intFlags_spec c f.flags
  unfold intText magnitude isNegative
  simp only [h8, h9]
  by_cases hc : c = ch 'i' ∨ c = ch 'd'
  · have hs : isSigned c = true := by simpa [isSigned] using hc
    simp [hc, hs]
  · have hs : isSigned c = false := by simpa [isSigned] using hc
    simp [hc, hs]

theorem baseOf_le (c : UInt8) : 2 ≤ baseOf c ∧ baseOf c ≤ 16 := by
  unfold baseOf
  split_ifs <;> omega

theorem intFlags_hash {c : UInt8} {f : Fields} (hh : f.flags.hash = false ∨ baseOf c = 10) :
    (intFlags c f.flags).hash = false := by
  obtain ⟨-, -, -, h4, -⟩ := intFlags_spec c f.flags
  rw [h4]
  rcases hh with h | h <;> simp [h]

variable {x : Spec} {l : List UInt8} {va : List Arg} {f : Fields} {c : UInt8}

theorem natAbs_toInt_lt {w : ℕ} (hw : w ≤ 64) (b : BitVec w) : b.toInt.natAbs < 2 ^ 64 := by
  have h1 := b.isLt
  have h2 : 2 ^ w ≤ 2 ^ 64 := Nat.pow_le_pow_right (by norm_num) hw
  rw [BitVec.toInt_eq_toNat_cond]
  split_ifs <;> omega

theorem magnitude_lt (c : UInt8) (f : Fields) (a : Arg) : magnitude c f a < 2 ^ 64 := by
  have hu : ∀ {w : ℕ}, w ≤ 64 → ∀ b : BitVec w, b.toNat < 2 ^ 64 := fun hw b =>
    lt_of_lt_of_le b.isLt (Nat.pow_le_pow_right (by norm_num) hw)
  unfold magnitude signedValue unsignedValue Arg.int
  split_ifs
  all_goals first
    | exact natAbs_toInt_lt (by norm_num) _
    | exact hu (by norm_num) _

/-! ### Reading a number back -/

/-- The number that stands in a field. -/
def readField (base : ℕ) (text : List UInt8) : ℕ := readDigits base (text.filter solid)

theorem filter_fieldOf (left zeropad : Bool) (width : ℕ) {sign body : List UInt8}
    (hs : ∀ c ∈ sign, solid c = false) (hb : ∀ c ∈ body, solid c = true) :
    (fieldOf left zeropad width sign body).filter solid = body := by
  have h1 : sign.filter solid = [] := List.filter_eq_nil_iff.mpr fun c hc => by simp [hs c hc]
  have h2 : ∀ n, (List.replicate n (ch ' ')).filter solid = [] := fun n => by
    rw [List.filter_replicate, if_neg (by decide)]
  have h3 := List.filter_eq_self.mpr hb
  unfold fieldOf padField
  split_ifs <;> simp [h1, h2, h3]

theorem mem_fieldOf {left zeropad : Bool} {width : ℕ} {sign body : List UInt8}
    (hb : ∀ c ∈ body, solid c = true) : ch '-' ∈ fieldOf left zeropad width sign body ↔
      ch '-' ∈ sign := by
  have h1 : ch '-' ∉ body := fun h => absurd (hb _ h) (by decide)
  have h2 : ∀ n, ch '-' ∉ List.replicate n (ch ' ') :=
    fun n h => absurd (List.eq_of_mem_replicate h) (by decide)
  unfold fieldOf padField
  split_ifs <;> simp [h1, h2]

theorem of_mem_fieldOf {left zeropad : Bool} {width : ℕ} {sign body : List UInt8} {d : UInt8}
    (h : d ∈ fieldOf left zeropad width sign body) : d ∈ sign ∨ d ∈ body ∨ d = ch ' ' := by
  have h2 : ∀ n, d ∈ List.replicate n (ch ' ') → d = ch ' ' := fun n h => List.eq_of_mem_replicate h
  unfold fieldOf padField at h
  split_ifs at h <;> simp only [List.mem_append] at h
  · tauto
  · rcases h with h | h
    · tauto
    · exact Or.inr (Or.inr (h2 _ h))
  · rcases h with h | h
    · exact Or.inr (Or.inr (h2 _ h))
    · tauto

theorem intText_ne_zero (hh : f.flags.hash = false ∨ baseOf c = 10) (a : Arg) :
    ∀ d ∈ intText c f a, d ≠ 0 := by
  obtain ⟨hb, h16⟩ := baseOf_le c
  intro d hd
  rw [intText_eq, ntoaText_eq hb _ _ _ _ _ (intFlags_hash hh)] at hd
  rcases of_mem_fieldOf hd with h | h | h
  · split_ifs at h
    · revert h
      unfold signOf
      split_ifs <;> simp <;> rintro rfl <;> decide
    · cases h
  · have hs := bodyOf_solid _ _ (fun d hd => digitsFor_lt hb h16 _ _ d (List.mem_of_mem_take hd)) d h
    rintro rfl
    cases hs
  · rw [h]
    decide

theorem intText_length_le (hh : f.flags.hash = false ∨ baseOf c = 10) (hw : f.width = 0) (a : Arg) :
    (intText c f a).length ≤ 33 := by
  rw [intText_eq, ntoaText_eq (baseOf_le c).1 _ _ _ _ _ (intFlags_hash hh), hw]
  set body := ntoaBody (intFlags c f.flags) (isNegative c f a) (baseOf c) f.precision 0
    (magnitude c f a) with hb
  have h32 : body.length ≤ 32 := by
    rw [hb, ntoaBody_length]
    omega
  have hs : (if body.length < 32 then signOf (isNegative c f a) (intFlags c f.flags).plus
      (intFlags c f.flags).space else []).length ≤ 1 := by
    rw [apply_ite List.length, signOf_length]
    split_ifs <;> simp
  generalize (if body.length < 32 then
    signOf (isNegative c f a) (intFlags c f.flags).plus (intFlags c f.flags).space else []) = sign at hs
  unfold fieldOf padField
  split_ifs <;> simp only [List.length_append, List.length_replicate] <;> omega

/-- **Every number can be read back from its field**, whatever the flags, the width and the
precision; of a binary number the last 32 digits. The sign is there unless the field has 32 digits. -/
theorem readField_intText (hh : f.flags.hash = false ∨ baseOf c = 10) (a : Arg) :
    readField (baseOf c) (intText c f a) =
        (if baseOf c = 2 then magnitude c f a % 2 ^ 32 else magnitude c f a) ∧
      (ch '-' ∈ intText c f a ↔
        isNegative c f a = true ∧ ((intText c f a).filter solid).length < 32) := by
  obtain ⟨hb, h16⟩ := baseOf_le c
  rw [intText_eq, ntoaText_eq hb _ _ _ _ _ (intFlags_hash hh)]
  set fs := intFlags c f.flags
  set body := ntoaBody fs (isNegative c f a) (baseOf c) f.precision f.width (magnitude c f a) with hbody
  set sign := if body.length < 32 then signOf (isNegative c f a) fs.plus fs.space else [] with hsign
  have hs : ∀ c ∈ sign, solid c = false := by
    rw [hsign]
    split_ifs
    · exact signOf_solid _ _ _
    · simp
  have hbs : ∀ c ∈ body, solid c = true :=
    bodyOf_solid _ _ fun d hd => digitsFor_lt hb h16 _ _ d (List.mem_of_mem_take hd)
  rw [readField, filter_fieldOf _ _ _ hs hbs, hbody, readDigits_ntoaBody hb h16, ← hbody, mem_fieldOf hbs]
  constructor
  · by_cases h2 : baseOf c = 2
    · rw [if_pos h2, h2]
    · rw [if_neg h2]
      refine Nat.mod_eq_of_lt (lt_of_lt_of_le (magnitude_lt c f a) ?_)
      have h8 : 8 ≤ baseOf c := by
        revert h2
        unfold baseOf
        split_ifs <;> omega
      exact le_trans (by norm_num) (Nat.pow_le_pow_left h8 32)
  · rw [hsign]
    by_cases hl : body.length < 32
    · rw [if_pos hl]
      have hm : ch '-' ∈ signOf (isNegative c f a) fs.plus fs.space ↔ isNegative c f a = true := by
        cases isNegative c f a <;> cases fs.plus <;> cases fs.space <;> decide
      rw [hm]
      exact ⟨fun h => ⟨h, hl⟩, fun h => h.1⟩
    · rw [if_neg hl]
      exact ⟨fun h => absurd h (List.not_mem_nil), fun h => absurd h.2 hl⟩

/-! ### An integer directive on its own -/

/-- The characters `_vsnprintf` puts out, the terminator included. -/
def putOut (format : List UInt8) (va : List Arg) : Except Err (List UInt8) :=
  (vsnprintf (fun c _ _ s => s ++ [c]) 1 (2 ^ 64 - 1) format va []).map Prod.fst

theorem putOut_eq {format : List UInt8} {va : List Arg} {text : List UInt8} (h : Prints format va text) :
    putOut format va = .ok (text ++ [0]) := by
  have hv := (vsnprintf_ok_iff (fun c _ _ s => s ++ [c]) 1 (2 ^ 64 - 1) format va [] _).mpr ⟨text, h, rfl⟩
  rw [putOut, hv, if_neg (by decide), finish, puts_collect]
  rfl

section Directive
variable {va' : List Arg} {a : Arg} (hw : (Item.dir x c).WF) (hc : IntConv c)
  (hf : x.fields [] va = .ok f)
  (hva : f.va = a :: va')
include hw hc hf hva

theorem prints_int : Prints (Item.dir x c).chars va (intText c f a) := by
  refine ⟨[.dir x c], va', by simpa using hw, by simp [formatOf], ?_⟩
  have hconv : convText c f = .ok (intText c f a, va') := by
    unfold IntConv at hc
    rw [convText, if_pos hc, hva]
    rfl
  rw [render, hf]
  simp only [bind, Except.bind]
  rw [hconv]
  simp [render]

theorem putOut_int : putOut (Item.dir x c).chars va = .ok (intText c f a ++ [0]) :=
  putOut_eq (prints_int hw hc hf hva)

theorem putOut_int_iff (text : List UInt8) :
    putOut (Item.dir x c).chars va = .ok (text ++ [0]) ↔ intText c f a = text := by
  rw [putOut_int hw hc hf hva, Except.ok.injEq, List.append_left_inj]

/-- **The number can be read back** from what an integer directive puts out, whatever the flags, the
width and the precision; of a binary number the last 32 digits. The sign is there unless the field
has 32 digits. -/
theorem directive_readable (hh : f.flags.hash = false ∨ baseOf c = 10) : ∃ text,
    putOut (Item.dir x c).chars va = .ok (text ++ [0]) ∧
      readField (baseOf c) text = (if baseOf c = 2 then magnitude c f a % 2 ^ 32 else magnitude c f a) ∧
      (ch '-' ∈ text ↔ isNegative c f a = true ∧ (text.filter solid).length < 32) :=
  ⟨_, putOut_int hw hc hf hva, readField_intText hh a⟩

end Directive

/-- `%-6o` of `8`. -/
theorem directive_readable_oct : ∃ text, putOut (str "%-6o") [⟨8#64, none⟩] = .ok (text ++ [0]) ∧
    readField 8 text = 8 := by
  obtain ⟨text, h1, h2, -⟩ := directive_readable (x := ⟨[.minus], .num [6], none, .none⟩) (c := ch 'o')
    (by decide +kernel) (by decide) (rfl : Spec.fields _ [] [⟨8#64, none⟩] = .ok _) rfl (Or.inl rfl)
  exact ⟨text, h1, h2⟩

end FusionCore.Libk.Kprintf
