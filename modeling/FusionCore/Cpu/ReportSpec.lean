import FusionCore.Cpu.Report
import FusionCore.Cpu.IsrFrame
import FusionCore.Libk.LogSpec

/-! # Reading a report back (`cpu/cpu.c`, `cpu/isr.c`)

`Shows op text` says that a call sends `text`; a list of calls sends the texts of its calls (`runOps_eq`).
Every line of a register dump has four numbers of sixteen hexadecimal digits at the same columns, so the
numbers can be read back from the dump (`readDump_dumpText`). On the report of an interrupt they are the
registers of the interrupted processor, with `rbp` and `rsi` exchanged; the reports that name the
interrupt read the table of exceptions at the vector, and fail for a vector outside it
(`report_readable`). -/

namespace FusionCore.Cpu.Report

open FusionCore.Lib.ByteMem FusionCore.Lib.Schedule FusionCore.Libk FusionCore.Libk.Kprintf
  FusionCore.Libk.Log
open FusionCore.Cpu.Isr FusionCore.Cpu.IsrFrame
open FusionCore.Dd.Com (Uart Turn)

/-! ### Lists of calls -/

/-- The call sends the text. -/
def Shows : Op → List UInt8 → Prop
  | .debug fmt va, text => Prints fmt va text ∧ (∀ c ∈ text, c ≠ 0) ∧ text.length < bufSize
  | .setCol col, text => text = col

/-- **The calls send their texts**, and change memory only in the buffer. -/
theorem runOps_eq {dbgBuf : ℕ} (hb : dbgBuf ≠ 0) {ops : List Op} {texts : List (List UInt8)}
    (h : List.Forall₂ Shows ops texts) (con : Console) :
    ∃ con', runOps dbgBuf ops con = .ok con' ∧ con'.strs = con.strs ++ texts ∧
      ∀ a, a ∉ Set.Ico dbgBuf (dbgBuf + bufSize) → con'.mem a = con.mem a := by
  induction h generalizing con with
  | nil => exact ⟨con, rfl, (List.append_nil _).symm, fun _ _ => rfl⟩
  | @cons op text ops texts hop _ ih =>
    cases op with
    | debug fmt va =>
      obtain ⟨hp, hz, hl⟩ := hop
      have hl' : text.length < 2 ^ 64 - 1 := lt_of_lt_of_le hl (by norm_num [bufSize])
      obtain ⟨con', h1, h2, h3⟩ := ih
        { mem := unbounded dbgBuf text con.mem
          strs := con.strs ++ [upToZero text]
          halted := con.halted }
      refine ⟨con', ?_, ?_, fun a ha => (h3 a ha).trans (unbounded_of_not_mem hl ha)⟩
      · rw [runOps, debug_eq hb hp hl']
        exact h1
      · rw [h2, upToZero_eq hz, List.append_assoc]
        rfl
    | setCol col =>
      obtain ⟨con', h1, h2, h3⟩ := ih (comSendString col con)
      refine ⟨con', h1, ?_, h3⟩
      rw [h2, show text = col from hop]
      exact List.append_assoc ..

/-! ### Hexadecimal numbers -/

/-- `%.16llx`. -/
def hexFormat : List UInt8 := str "%.16llx"

/-- The sixteen digits. -/
def hexText (w : BitVec 64) : List UInt8 := bodyOf false 16 (Nat.digits 16 w.toNat)

theorem digits_le (w : BitVec 64) : (Nat.digits 16 w.toNat).length ≤ 16 :=
  (Nat.digits_length_le_iff (by norm_num) _).mpr (by have := w.isLt; norm_num at this ⊢; exact this)

theorem hexText_length (w : BitVec 64) : (hexText w).length = 16 := by
  rw [hexText, bodyOf_length]
  exact max_eq_left (digits_le w)

theorem digits_lt (w : BitVec 64) : ∀ d ∈ Nat.digits 16 w.toNat, d < 16 := fun _ h =>
  Nat.digits_lt_base (by norm_num) h

theorem hexText_ne_zero (w : BitVec 64) : ∀ c ∈ hexText w, c ≠ 0 := fun c hc => by
  have := bodyOf_solid false 16 (digits_lt w) c hc
  rintro rfl
  cases this

theorem readDigits_hexText (w : BitVec 64) : readDigits 16 (hexText w) = w.toNat :=
  (readDigits_bodyOf 16 false 16 (digits_lt w)).trans (Nat.ofDigits_digits 16 w.toNat)

/-- The fields of `%.16llx`. -/
def hexFields (va : List Arg) : Fields :=
  { flags := { precision := true, long := true, longLong := true }, precision := 16, format := [], va }

theorem intText_hex (w : BitVec 64) (va : List Arg) :
    intText (ch 'x') (hexFields va) ⟨w, none⟩ = hexText w := by
  have hd : digitsFor true 16 w.toNat = Nat.digits 16 w.toNat := by
    unfold digitsFor digitsOf
    by_cases hv : w.toNat = 0
    · simp [hv]
    · simp [hv]
  have htake : (Nat.digits 16 w.toNat).take 32 = Nat.digits 16 w.toNat :=
    List.take_of_length_le (le_trans (digits_le w) (by norm_num))
  have hbody : ntoaBody (intFlags (ch 'x') (hexFields va).flags) false 16 16 0 w.toNat = hexText w := by
    rw [ntoaBody, show (intFlags (ch 'x') (hexFields va).flags).precision = true from rfl, hd, htake]
    rfl
  have hm : magnitude (ch 'x') (hexFields va) ⟨w, none⟩ = w.toNat := rfl
  rw [intText_eq, hm, show isNegative (ch 'x') (hexFields va) ⟨w, none⟩ = false from rfl,
    ntoaText_eq (baseOf_le _).1 _ _ _ _ _ rfl]
  change Kprintf.fieldOf false false 0
    (if (ntoaBody (intFlags (ch 'x') (hexFields va).flags) false 16 16 0 w.toNat).length < 32 then
      [] else [])
    (ntoaBody (intFlags (ch 'x') (hexFields va).flags) false 16 16 0 w.toNat) = _
  rw [hbody, ite_self]
  simp [Kprintf.fieldOf, padField]

theorem renders_hex (w : BitVec 64) (va : List Arg) :
    Renders hexFormat (⟨w, none⟩ :: va) (hexText w) va := by
  let x : Spec := { prec := some (.num [1, 6]), length := .ll }
  have hfmt : hexFormat = ch '%' :: (x.chars ++ [ch 'x']) := by
    simp [hexFormat, str, Spec.chars, x, precChars, Count.chars, Length.chars, digit, ch]
  have hc : convText (ch 'x') (hexFields (⟨w, none⟩ :: va)) = .ok (hexText w, va) :=
    congrArg (fun t => Except.ok (t, va)) (intText_hex w _)
  rw [hfmt]
  exact renders_dir (by decide) rfl hc

/-! ### The lines of a dump -/

/-- A line of a dump: four numbers, each behind its label. -/
def lineFormat (l₁ l₂ l₃ l₄ : List UInt8) : List UInt8 :=
  l₁ ++ (hexFormat ++ (l₂ ++ (hexFormat ++ (l₃ ++ (hexFormat ++ (l₄ ++ (hexFormat ++ str "\n")))))))

/-- The text of a line. -/
def lineText (l₁ l₂ l₃ l₄ : List UInt8) (a b c d : BitVec 64) : List UInt8 :=
  l₁ ++ (hexText a ++ (l₂ ++ (hexText b ++ (l₃ ++ (hexText c ++ (l₄ ++ (hexText d ++ str "\n")))))))

theorem renders_line {l₁ l₂ l₃ l₄ : List UInt8} (h : ∀ c ∈ l₁ ++ l₂ ++ l₃ ++ l₄, c ≠ ch '%')
    (a b c d : BitVec 64) :
    Renders (lineFormat l₁ l₂ l₃ l₄) [⟨a, none⟩, ⟨b, none⟩, ⟨c, none⟩, ⟨d, none⟩]
      (lineText l₁ l₂ l₃ l₄ a b c d) [] := by
  have step : ∀ {l : List UInt8} (w : BitVec 64) {f t : List UInt8} {va : List Arg},
      (∀ c ∈ l, c ≠ ch '%') →
      Renders f va t [] → Renders (l ++ (hexFormat ++ f)) (⟨w, none⟩ :: va) (l ++ (hexText w ++ t)) [] :=
    fun w _ _ _ hl ht => (renders_lits hl _).append ((renders_hex w _).append ht)
  have hend : ∀ c ∈ str "\n", c ≠ ch '%' := by simp [str, ch]
  simp only [List.mem_append] at h
  exact step a (fun c hc => h c (Or.inl (Or.inl (Or.inl hc))))
    (step b (fun c hc => h c (Or.inl (Or.inl (Or.inr hc))))
    (step c (fun c hc => h c (Or.inl (Or.inr hc)))
      (step d (fun c hc => h c (Or.inr hc)) (renders_lits hend []))))

/-- The labels of the five lines. -/
def labels : Fin 5 → List UInt8 × List UInt8 × List UInt8 × List UInt8
  | 0 => (str "rax: 0x", str ", rbx:    0x", str ", rcx: 0x", str ", rdx: 0x")
  | 1 => (str "rsi: 0x", str ", rdi:    0x", str ", rbp: 0x", str ", r8:  0x")
  | 2 => (str "r9:  0x", str ", r10:    0x", str ", r11: 0x", str ", r12: 0x")
  | 3 => (str "r13: 0x", str ", r14:    0x", str ", r15: 0x", str ", ss : 0x")
  | 4 => (str "rsp: 0x", str ", rflags: 0x", str ", cs:  0x", str ", rip: 0x")

/-- The registers of the five lines. -/
def values (s : CpuState) : Fin 5 → BitVec 64 × BitVec 64 × BitVec 64 × BitVec 64
  | 0 => (s.rax, s.rbx, s.rcx, s.rdx)
  | 1 => (s.rsi, s.rdi, s.rbp, s.r8)
  | 2 => (s.r9, s.r10, s.r11, s.r12)
  | 3 => (s.r13, s.r14, s.r15, s.ss)
  | 4 => (s.rsp, s.rflags, s.cs, s.rip)

/-- The text of the line `i`. -/
def dumpLine (s : CpuState) (i : Fin 5) : List UInt8 :=
  lineText (labels i).1 (labels i).2.1 (labels i).2.2.1 (labels i).2.2.2
    (values s i).1 (values s i).2.1 (values s i).2.2.1 (values s i).2.2.2

theorem five_lines (i : Fin 5) : i = 0 ∨ i = 1 ∨ i = 2 ∨ i = 3 ∨ i = 4 := by omega

theorem labels_length (i : Fin 5) : (labels i).1.length = 7 ∧ (labels i).2.1.length = 12 ∧
    (labels i).2.2.1.length = 9 ∧ (labels i).2.2.2.length = 9 := by
  fin_cases i <;> simp [labels, str]

theorem labels_chars (i : Fin 5) :
    ∀ c ∈ (labels i).1 ++ (labels i).2.1 ++ (labels i).2.2.1 ++ (labels i).2.2.2,
    c ≠ ch '%' ∧ c ≠ 0 := by
  have hall : ((labels i).1 ++ (labels i).2.1 ++ (labels i).2.2.1 ++ (labels i).2.2.2).all
      (fun c => c != ch '%' && c != 0) = true := by
    revert i
    decide +kernel
  intro c hc
  simpa using List.all_eq_true.mp hall c hc

theorem dumpLine_length (s : CpuState) (i : Fin 5) : (dumpLine s i).length = 102 := by
  obtain ⟨h1, h2, h3, h4⟩ := labels_length i
  have h5 : (str "\n").length = 1 := by simp [str]
  simp only [dumpLine, lineText, List.length_append, hexText_length, h1, h2, h3, h4, h5]

theorem dumpLine_ne_zero (s : CpuState) (i : Fin 5) : ∀ c ∈ dumpLine s i, c ≠ 0 := by
  intro c hc
  have hl := labels_chars i
  have hn : ∀ c ∈ str "\n", c ≠ 0 := by simp [str, ch]
  simp only [dumpLine, lineText, List.mem_append] at hc
  simp only [List.mem_append] at hl
  rcases hc with h | h | h | h | h | h | h | h | h
  · exact (hl c (Or.inl (Or.inl (Or.inl h)))).2
  · exact hexText_ne_zero _ c h
  · exact (hl c (Or.inl (Or.inl (Or.inr h)))).2
  · exact hexText_ne_zero _ c h
  · exact (hl c (Or.inl (Or.inr h))).2
  · exact hexText_ne_zero _ c h
  · exact (hl c (Or.inr h)).2
  · exact hexText_ne_zero _ c h
  · exact hn c h

/-! ### Reading the dump -/

/-- The number of sixteen digits at a column. -/
def readHex (text : List UInt8) (column : ℕ) : ℕ := readDigits 16 ((text.drop column).take 16)

theorem readHex_at (pre post : List UInt8) {column : ℕ} (w : BitVec 64) (h : pre.length = column) :
    readHex (pre ++ (hexText w ++ post)) column = w.toNat := by
  rw [readHex, ← h, List.drop_left, List.take_left' (hexText_length w), readDigits_hexText]

/-- The four numbers of the line that begins at `k`. -/
def readLine (text : List UInt8) (k : ℕ) : ℕ × ℕ × ℕ × ℕ :=
  (readHex text (k + 7), readHex text (k + 35), readHex text (k + 60), readHex text (k + 85))

theorem readLine_lineText {l₁ l₂ l₃ l₄ : List UInt8} (h₁ : l₁.length = 7) (h₂ : l₂.length = 12)
    (h₃ : l₃.length = 9) (h₄ : l₄.length = 9) (a b c d : BitVec 64) (pre post : List UInt8) {k : ℕ}
    (h : pre.length = k) :
    readLine (pre ++ (lineText l₁ l₂ l₃ l₄ a b c d ++ post)) k =
    (a.toNat, b.toNat, c.toNat, d.toNat) := by
  -- the text in front of each number and behind it
  have e₁ : pre ++ (lineText l₁ l₂ l₃ l₄ a b c d ++ post) =
      (pre ++ l₁) ++ (hexText a ++ (l₂ ++ (hexText b ++
      (l₃ ++ (hexText c ++ (l₄ ++ (hexText d ++ (str "\n" ++ post)))))))) := by simp [lineText]
  have e₂ : pre ++ (lineText l₁ l₂ l₃ l₄ a b c d ++ post) =
      (pre ++ l₁ ++ hexText a ++ l₂) ++ (hexText b ++
      (l₃ ++ (hexText c ++ (l₄ ++ (hexText d ++ (str "\n" ++ post)))))) := by simp [lineText]
  have e₃ : pre ++ (lineText l₁ l₂ l₃ l₄ a b c d ++ post) =
      (pre ++ l₁ ++ hexText a ++ l₂ ++ hexText b ++ l₃) ++
      (hexText c ++ (l₄ ++ (hexText d ++ (str "\n" ++ post)))) := by simp [lineText]
  have e₄ : pre ++ (lineText l₁ l₂ l₃ l₄ a b c d ++ post) =
      (pre ++ l₁ ++ hexText a ++ l₂ ++ hexText b ++ l₃ ++ hexText c ++ l₄) ++
      (hexText d ++ (str "\n" ++ post)) := by
    simp [lineText]
  refine Prod.ext ?_ (Prod.ext ?_ (Prod.ext ?_ ?_))
  · exact (congrArg (readHex · _) e₁).trans (readHex_at _ _ a (by simp [h, h₁]))
  · exact (congrArg (readHex · _) e₂).trans (readHex_at _ _ b (by simp [h, h₁, h₂, hexText_length]))
  · exact (congrArg (readHex · _) e₃).trans (readHex_at _ _ c (by simp [h, h₁, h₂, h₃, hexText_length]))
  · exact (congrArg (readHex · _) e₄).trans (readHex_at _ _ d
      (by simp [h, h₁, h₂, h₃, h₄, hexText_length]))

theorem readLine_dumpLine (s : CpuState) (i : Fin 5) (pre post : List UInt8) {k : ℕ}
    (h : pre.length = k) :
    readLine (pre ++ (dumpLine s i ++ post)) k =
      ((values s i).1.toNat, (values s i).2.1.toNat, (values s i).2.2.1.toNat,
        (values s i).2.2.2.toNat) := by
  obtain ⟨h1, h2, h3, h4⟩ := labels_length i
  exact readLine_lineText h1 h2 h3 h4 _ _ _ _ pre post h

/-- The head of a dump. -/
def dumpHead : List UInt8 := str "Register dump:\n\n"

/-- The text of a dump. -/
def dumpText (s : CpuState) : List UInt8 :=
  dumpHead ++ (dumpLine s 0 ++ (dumpLine s 1 ++ (dumpLine s 2 ++ (dumpLine s 3 ++ dumpLine s 4))))

/-- The numbers of a dump. -/
def readDump (text : List UInt8) (i : Fin 5) : ℕ × ℕ × ℕ × ℕ := readLine text (16 + 102 * i.val)

/-- **The registers can be read back from a dump.** -/
theorem readDump_dumpText (s : CpuState) (post : List UInt8) (i : Fin 5) :
    readDump (dumpText s ++ post) i =
      ((values s i).1.toNat, (values s i).2.1.toNat, (values s i).2.2.1.toNat,
        (values s i).2.2.2.toNat) := by
  have hh : dumpHead.length = 16 := by simp [dumpHead, str]
  -- the text in front of each line and behind it
  obtain ⟨pre, tail, hsplit, hlen⟩ : ∃ pre tail, dumpText s ++ post = pre ++ (dumpLine s i ++ tail) ∧
      pre.length = 16 + 102 * i.val := by
    unfold dumpText
    rcases five_lines i with rfl | rfl | rfl | rfl | rfl
    · exact ⟨dumpHead, dumpLine s 1 ++ (dumpLine s 2 ++ (dumpLine s 3 ++ (dumpLine s 4 ++ post))),
        by simp, hh⟩
    · exact ⟨dumpHead ++ dumpLine s 0, dumpLine s 2 ++ (dumpLine s 3 ++ (dumpLine s 4 ++ post)), by simp,
        by simp [dumpLine_length, hh]⟩
    · exact ⟨dumpHead ++ dumpLine s 0 ++ dumpLine s 1, dumpLine s 3 ++ (dumpLine s 4 ++ post), by simp,
        by simp [dumpLine_length, hh]⟩
    · exact ⟨dumpHead ++ dumpLine s 0 ++ dumpLine s 1 ++ dumpLine s 2, dumpLine s 4 ++ post, by simp,
        by simp [dumpLine_length, hh]⟩
    · exact ⟨dumpHead ++ dumpLine s 0 ++ dumpLine s 1 ++ dumpLine s 2 ++ dumpLine s 3, post, by simp,
        by simp [dumpLine_length, hh]⟩
  rw [readDump, hsplit]
  exact readLine_dumpLine s i pre tail hlen

/-! ### The calls -/

theorem shows_lits {l : List UInt8} (h : ∀ c ∈ l, c ≠ ch '%' ∧ c ≠ 0) (hl : l.length < bufSize) :
    Shows (.debug l []) l :=
      ⟨(renders_lits (fun c hc => (h c hc).1) []).prints, fun c hc => (h c hc).2, hl⟩

theorem shows_dumpLine (s : CpuState) (i : Fin 5) {fmt : List UInt8}
    (hfmt : fmt = lineFormat (labels i).1 (labels i).2.1 (labels i).2.2.1 (labels i).2.2.2) :
    Shows (.debug fmt [⟨(values s i).1, none⟩, ⟨(values s i).2.1, none⟩, ⟨(values s i).2.2.1, none⟩,
      ⟨(values s i).2.2.2, none⟩]) (dumpLine s i) := by
  refine ⟨?_, dumpLine_ne_zero s i, by rw [dumpLine_length]; norm_num [bufSize]⟩
  rw [hfmt]
  exact (renders_line (fun c hc => (labels_chars i c hc).1) _ _ _ _).prints

theorem shows_dump (s : CpuState) : List.Forall₂ Shows (cpuRegDump s)
    [dumpHead, dumpLine s 0, dumpLine s 1, dumpLine s 2, dumpLine s 3, dumpLine s 4] := by
  refine .cons (shows_lits (by simp [str, ch]) (by simp [str, bufSize])) (.cons (shows_dumpLine s 0 ?_)
    (.cons (shows_dumpLine s 1 ?_) (.cons (shows_dumpLine s 2 ?_) (.cons (shows_dumpLine s 3 ?_)
      (.cons (shows_dumpLine s 4 ?_) .nil)))))
  all_goals simp [lineFormat, hexFormat, labels, str]

/-- The text that names an interrupt. -/
def nameLine (v : BitVec 64) (name : List UInt8) : List UInt8 :=
  str "    ISR" ++ (decText ⟨v, none⟩ ++ (str ": " ++ (name ++ str "\n")))

theorem decText_length (a : Arg) : (decText a).length ≤ 33 := intText_length_le (Or.inl rfl) rfl a

theorem name_format : str "    ISR%d: %s\n" =
    str "    ISR" ++ ([ch '%', ch 'd'] ++ (str ": " ++ ([ch '%', ch 's'] ++ str "\n"))) := by simp [str]

theorem name_chars : ∀ c ∈ str "    ISR" ++ str ": " ++ str "\n", c ≠ ch '%' ∧ c ≠ 0 := by simp [str, ch]

theorem shows_name (v : BitVec 64) {a : Arg} {name : List UInt8} (ha : a.str = some name)
    (hz : ∀ c ∈ name, c ≠ 0)
    (hl : name.length ≤ 100) : Shows (.debug (str "    ISR%d: %s\n") [⟨v, none⟩, a])
      (nameLine v name) := by
  have hc := name_chars
  simp only [List.mem_append] at hc
  refine ⟨?_, ?_, ?_⟩
  · have htail := (renders_s ha []).append (renders_lits (fun c h => (hc c (Or.inr h)).1) [])
    have h := (renders_d ⟨v, none⟩ [a]).append
      ((renders_lits (fun c h => (hc c (Or.inl (Or.inr h))).1) [a]).append htail)
    rw [name_format]
    exact ((renders_lits (fun c h => (hc c (Or.inl (Or.inl h))).1) _).append h).prints
  · intro c h
    simp only [nameLine, List.mem_append] at h
    rcases h with h | h | h | h | h
    · exact (hc c (Or.inl (Or.inl h))).2
    · exact mem_decText h
    · exact (hc c (Or.inl (Or.inr h))).2
    · exact hz c h
    · exact (hc c (Or.inr h)).2
  · have h1 : (str "    ISR").length = 7 := by simp [str]
    have h2 : (str ": ").length = 2 := by simp [str]
    have h3 : (str "\n").length = 1 := by simp [str]
    have h4 := decText_length ⟨v, none⟩
    simp only [nameLine, List.length_append, h1, h2, h3, bufSize]
    omega

/-- The text of the error code. -/
def errLine (e : BitVec 64) : List UInt8 := str "    Error Code: 0x" ++ (hexText e ++ str "\n\n\n")

theorem shows_err (e : BitVec 64) :
    Shows (.debug (str "    Error Code: 0x%.16llx\n\n\n") [⟨e, none⟩]) (errLine e) := by
  have hfmt : str "    Error Code: 0x%.16llx\n\n\n" =
      str "    Error Code: 0x" ++ (hexFormat ++ str "\n\n\n") := by
    simp [hexFormat, str]
  have hc : ∀ c ∈ str "    Error Code: 0x" ++ str "\n\n\n", c ≠ ch '%' ∧ c ≠ 0 := by simp [str, ch]
  simp only [List.mem_append] at hc
  refine ⟨?_, ?_, ?_⟩
  · rw [hfmt]
    exact ((renders_lits (fun c h => (hc c (Or.inl h)).1) _).append ((renders_hex e []).append
      (renders_lits (fun c h => (hc c (Or.inr h)).1) []))).prints
  · intro c h
    simp only [errLine, List.mem_append] at h
    rcases h with h | h | h
    · exact (hc c (Or.inl h)).2
    · exact hexText_ne_zero e c h
    · exact (hc c (Or.inr h)).2
  · have h1 : (str "    Error Code: 0x").length = 18 := by simp [str]
    have h2 : (str "\n\n\n").length = 3 := by simp [str]
    simp only [errLine, List.length_append, h1, h2, hexText_length, bufSize]
    norm_num

theorem debug_error {dbgBuf : ℕ} (hb : dbgBuf ≠ 0) {fmt : List UInt8} {va : List Arg} {e : Err}
    (h : Stops fmt va e) (con : Console) : Libk.Log.debug dbgBuf fmt va con = .error e := by
  obtain ⟨is, hw, rfl, hr⟩ := h
  obtain ⟨k', -, he⟩ := vsnprintfLoop_items (outBuffer dbgBuf) (2 ^ 64 - 1) hw []
    (k := (formatOf is).length)
    (by rw [List.append_nil]) va (0, con.mem)
  rw [List.append_nil, hr] at he
  unfold Libk.Log.debug vsnprintfBuffer vsnprintf
  simp only [if_neg hb, bind, Except.bind, he]

/-! ### Reports -/

theorem names_ok : ∀ s ∈ exceptions, (∀ c ∈ s.toUTF8.toList, c ≠ 0) ∧ s.toUTF8.toList.length ≤ 100 := by
  have hall : (exceptions.all fun s =>
      s.toUTF8.toList.all (· != 0) && decide (s.toUTF8.toList.length ≤ 100)) = true := by decide +kernel
  intro s hs
  have h := List.all_eq_true.mp hall s hs
  rw [Bool.and_eq_true, List.all_eq_true, decide_eq_true_iff] at h
  exact ⟨fun c hc => bne_iff_ne.mp (h.1 c hc), h.2⟩

theorem exists_name {v : ℕ} (hv : v < 32) :
    ∃ name : List UInt8, (exceptions[v]?).map (fun s => s.toUTF8.toList) = some name ∧
      (∀ c ∈ name, c ≠ 0) ∧ name.length ≤ 100 := by
  have hl : v < exceptions.length := hv
  refine ⟨(exceptions[v]).toUTF8.toList, by rw [List.getElem?_eq_getElem hl]; rfl, ?_⟩
  exact names_ok _ (List.getElem_mem hl)

theorem around_eq {dbgBuf : ℕ} (hb : dbgBuf ≠ 0) (s : CpuState) {before behind : List Op}
    {t₁ t₂ : List (List UInt8)} (h₁ : List.Forall₂ Shows before t₁)
      (h₂ : List.Forall₂ Shows behind t₂) (m : Mem) :
    ∃ con', runOps dbgBuf (around before s behind) { mem := m, strs := [] } = .ok con' ∧
      con'.strs.flatten = t₁.flatten ++ (dumpText s ++ t₂.flatten) := by
  obtain ⟨con', h, hs, -⟩ := runOps_eq hb (List.rel_append h₁ (List.rel_append (shows_dump s) h₂))
    { mem := m, strs := [] }
  refine ⟨con', h, ?_⟩
  rw [hs]
  simp [dumpText]

theorem setCol_shows (col : List UInt8) : Shows (.setCol col) col := rfl

/-- The vector is an exception, or one whose report does not name it. -/
def Named (v : ℕ) : Prop := v < 32 ∨ v = 128 ∨ v = 255

section
variable {dbgBuf : ℕ} {v : ℕ} {s : CpuState} (hb : dbgBuf ≠ 0) (hv : v < 256)
  (hs : s.isrNum = BitVec.ofNat 64 v)

include hv hs in
theorem isrNum_toNat : s.isrNum.toNat = v := by
  rw [hs, BitVec.toNat_ofNat]
  exact Nat.mod_eq_of_lt (by omega)

include hv hs in
theorem isrNum_lt_iff {n : ℕ} (hn : n < 256) : s.isrNum < BitVec.ofNat 64 n ↔ v < n := by
  rw [BitVec.lt_def, isrNum_toNat hv hs, BitVec.toNat_ofNat, Nat.mod_eq_of_lt (by omega)]

include hv hs in
theorem isrNum_eq_iff {n : ℕ} (hn : n < 256) : s.isrNum = BitVec.ofNat 64 n ↔ v = n := by
  rw [← BitVec.toNat_inj, isrNum_toNat hv hs, BitVec.toNat_ofNat, Nat.mod_eq_of_lt (by omega)]

include hb hv hs in
/-- **The report of a vector that is named from the table, or not named at all**, with its dump. -/
theorem report_of_named (h : Named v) (m : Mem) :
    ∃ con' before behind, runOps dbgBuf (isrReport s) { mem := m, strs := [] } = .ok con' ∧
      con'.strs.flatten = before ++ (dumpText s ++ behind) := by
  have hred := setCol_shows termRed
  have hcyan := setCol_shows termCyan
  have hreset := setCol_shows termColorReset
  have hlit : ∀ l ∈ [str "\nEXCEPTION=EXCEPTION=EXCEPTION\n", str "\nHalting...",
      str "\nUNKNOWN SYSCALL OCCURED\n\n", str "\nSPURIOUS INTERRUPT OCCURED\n\n"],
      Shows (.debug l []) l := by
    intro l hl
    have h : (∀ c ∈ l, c ≠ ch '%' ∧ c ≠ 0) ∧ l.length < bufSize := by
      revert l
      simp [str, ch, bufSize]
    exact shows_lits h.1 h.2
  have h32 : s.isrNum < 32#64 ↔ v < 32 := isrNum_lt_iff hv hs (by norm_num)
  have h48 : s.isrNum < 48#64 ↔ v < 48 := isrNum_lt_iff hv hs (by norm_num)
  have h128 : s.isrNum = syscallInt ↔ v = 128 := isrNum_eq_iff hv hs (by norm_num)
  have h255 : s.isrNum = spuriousInt ↔ v = 255 := isrNum_eq_iff hv hs (by norm_num)
  unfold isrReport
  rcases h with h | h | h
  · rw [if_pos (h32.mpr h)]
    obtain ⟨name, hn, hz, hl⟩ := exists_name h
    have hname : Shows (.debug (str "    ISR%d: %s\n") (nameArgs s)) (nameLine s.isrNum name) :=
      shows_name s.isrNum (by rw [← hn, isrNum_toNat hv hs]) hz hl
    obtain ⟨con', h1, h2⟩ := around_eq hb s
      (.cons hred (.cons (hlit (str "\nEXCEPTION=EXCEPTION=EXCEPTION\n") (by simp)) (.cons hname
        (.cons (shows_err s.errCode) (.cons hcyan .nil)))))
      (.cons hreset (.cons (hlit (str "\nHalting...") (by simp)) .nil)) m
    exact ⟨con', _, _, h1, h2⟩
  · rw [if_neg (fun h' => absurd (h32.mp h') (by omega)),
      if_neg (fun h' => absurd (h48.mp h'.2) (by omega)), if_pos (h128.mpr h)]
    obtain ⟨con', h1, h2⟩ := around_eq hb s
      (.cons hred (.cons (hlit (str "\nUNKNOWN SYSCALL OCCURED\n\n") (by simp)) (.cons hcyan .nil)))
      (.cons hreset .nil) m
    exact ⟨con', _, _, h1, h2⟩
  · rw [if_neg (fun h' => absurd (h32.mp h') (by omega)),
      if_neg (fun h' => absurd (h48.mp h'.2) (by omega)),
      if_neg (fun h' => absurd (h128.mp h') (by omega)), if_pos (h255.mpr h)]
    obtain ⟨con', h1, h2⟩ := around_eq hb s
      (.cons (hlit (str "\nSPURIOUS INTERRUPT OCCURED\n\n") (by simp)) (.cons hcyan .nil))
        (.cons hreset .nil) m
    exact ⟨con', _, _, h1, h2⟩

include hb in
theorem name_error (h : exceptions.length ≤ s.isrNum.toNat) (con : Console) :
    Libk.Log.debug dbgBuf (str "    ISR%d: %s\n") (nameArgs s) con = .error .noString := by
  have hnone : (exceptions[s.isrNum.toNat]?).map (fun s : String => s.toUTF8.toList) = none := by
    rw [List.getElem?_eq_none h]
    rfl
  have hc := name_chars
  simp only [List.mem_append] at hc
  have hstop : Stops (str "    ISR%d: %s\n") (nameArgs s) .noString := by
    have h := (renders_d ⟨s.isrNum, none⟩ _).stops
      ((renders_lits (fun c h => (hc c (Or.inl (Or.inr h))).1) _).stops
        ((stops_s (a := ⟨0#64, none⟩) rfl []).append fun c h => (hc c (Or.inr h)).1))
    rw [name_format, nameArgs, hnone]
    exact (renders_lits (fun c h => (hc c (Or.inl (Or.inl h))).1) _).stops h
  exact debug_error hb hstop con

include hb hv hs in
theorem report_of_unnamed (h : ¬ Named v) (m : Mem) :
    runOps dbgBuf (isrReport s) { mem := m, strs := [] } = .error .noString := by
  have h32 : s.isrNum < 32#64 ↔ v < 32 := isrNum_lt_iff hv hs (by norm_num)
  have h128 : s.isrNum = syscallInt ↔ v = 128 := isrNum_eq_iff hv hs (by norm_num)
  have h255 : s.isrNum = spuriousInt ↔ v = 255 := isrNum_eq_iff hv hs (by norm_num)
  unfold Named at h
  have hlen : exceptions.length ≤ s.isrNum.toNat := by
    rw [isrNum_toNat hv hs]
    exact show 32 ≤ v by omega
  have key : ∀ l : List UInt8, Shows (.debug l []) l → ∀ ops : List Op,
      runOps dbgBuf (.setCol termRed :: .debug l [] :: .debug (str "    ISR%d: %s\n") (nameArgs s) :: ops)
        { mem := m, strs := [] } = .error .noString := by
    intro l hl ops
    rw [runOps, runOps, debug_eq hb hl.1 (lt_of_lt_of_le hl.2.2 (by norm_num [bufSize]))]
    simp only [bind, Except.bind]
    rw [runOps, name_error hb hlen]
    rfl
  unfold isrReport
  rw [if_neg (fun h' => h (Or.inl (h32.mp h')))]
  by_cases h48 : 32#64 ≤ s.isrNum ∧ s.isrNum < 48#64
  · rw [if_pos h48]
    exact key _ (shows_lits (by simp [str, ch]) (by simp [str, bufSize])) _
  · rw [if_neg h48, if_neg (fun h' => h (Or.inr (Or.inl (h128.mp h')))),
      if_neg (fun h' => h (Or.inr (Or.inr (h255.mp h'))))]
    exact key _ (shows_lits (by simp [str, ch]) (by simp [str, bufSize])) _

end

/-- The registers of a processor in the order of a dump, with `rbp` and `rsi` exchanged. -/
def dumped (c : Processor) : Fin 5 → ℕ × ℕ × ℕ × ℕ
  | 0 => ((c.regs .rax).toNat, (c.regs .rbx).toNat, (c.regs .rcx).toNat, (c.regs .rdx).toNat)
  | 1 => ((c.regs .rbp).toNat, (c.regs .rdi).toNat, (c.regs .rsi).toNat, (c.regs .r8).toNat)
  | 2 => ((c.regs .r9).toNat, (c.regs .r10).toNat, (c.regs .r11).toNat, (c.regs .r12).toNat)
  | 3 => ((c.regs .r13).toNat, (c.regs .r14).toNat, (c.regs .r15).toNat, c.ss.toNat)
  | 4 => (c.rsp.toNat, c.rflags.toNat, c.cs.toNat, c.rip.toNat)

theorem values_atCall (v : ℕ) (stack e : BitVec 64) (c : Processor) (i : Fin 5) :
    let s := cpuState (atCall v stack e c).mem ((atCall v stack e c).regs .rdi)
    ((values s i).1.toNat, (values s i).2.1.toNat, (values s i).2.2.1.toNat,
      (values s i).2.2.2.toNat) = dumped c i := by
  intro s
  obtain ⟨hr, -, -, hrip, hcs, hfl, hrsp, hss⟩ := cpuState_isrEntry v stack e c
  have hreg : ∀ r, (IsrFrame.fieldOf s r).toNat = (c.regs (fieldSource r)).toNat :=
    fun r => congrArg _ (hr r)
  have hcs' : s.cs.toNat = c.cs.toNat := by
    rw [show s.cs = _ from hcs]
    exact BitVec.toNat_setWidth_of_le (by norm_num)
  have hss' : s.ss.toNat = c.ss.toNat := by
    rw [show s.ss = _ from hss]
    exact BitVec.toNat_setWidth_of_le (by norm_num)
  rcases five_lines i with rfl | rfl | rfl | rfl | rfl
  · exact Prod.ext (hreg .rax) (Prod.ext (hreg .rbx) (Prod.ext (hreg .rcx) (hreg .rdx)))
  · exact Prod.ext (hreg .rsi) (Prod.ext (hreg .rdi) (Prod.ext (hreg .rbp) (hreg .r8)))
  · exact Prod.ext (hreg .r9) (Prod.ext (hreg .r10) (Prod.ext (hreg .r11) (hreg .r12)))
  · exact Prod.ext (hreg .r13) (Prod.ext (hreg .r14) (Prod.ext (hreg .r15) hss'))
  · exact Prod.ext (congrArg BitVec.toNat hrsp) (Prod.ext (congrArg BitVec.toNat hfl)
      (Prod.ext hcs' (congrArg BitVec.toNat hrip)))

/-- **The report of an interrupt on the serial line.** For an exception, the system call and the spurious
interrupt the whole report goes out on every fair schedule, and the registers of the interrupted processor
can be read from it, `rbp` and `rsi` in each other's place. For every other vector `isr_handler` reads
outside the table of names. -/
theorem report_readable {dbgBuf : ℕ} (hb : dbgBuf ≠ 0) {v : ℕ} (hv : v < 256) (stack e : BitVec 64)
    (c : Processor) (m : Mem) {u : Uart} (hu : u.dlab = false) {σ : ℕ → Turn} (hf : Fair σ) :
    let s := cpuState (atCall v stack e c).mem ((atCall v stack e c).regs .rdi)
    (Named v → ∃ con' before report,
        runOps dbgBuf (isrReport s) { mem := m, strs := [] } = .ok con' ∧
        (∃ N, ∀ n, N ≤ n → (after (Dd.Com.step 0x3F8) (Dd.Com.start u con'.strs) σ n).uart.line =
          u.line ++ u.waiting ++ (before ++ report)) ∧
        ∀ i, readDump report i = dumped c i) ∧
      (¬ Named v → runOps dbgBuf (isrReport s) { mem := m, strs := [] } = .error .noString) := by
  intro s
  have hs : s.isrNum = BitVec.ofNat 64 v := (cpuState_isrEntry v stack e c).2.1
  refine ⟨fun h => ?_, fun h => report_of_unnamed hb hv hs h m⟩
  obtain ⟨con', before, behind, h1, h2⟩ := report_of_named hb hv hs h m
  obtain ⟨N, hN⟩ := Dd.Com.sends_all hu 0x3F8 con'.strs hf
  refine ⟨con', before, dumpText s ++ behind, h1, ⟨N, fun n hn => h2 ▸ (hN n hn).2⟩, fun i => ?_⟩
  exact (readDump_dumpText s behind i).trans (values_atCall v stack e c i)

/-- Distinct registers. -/
def counted : Reg → BitVec 64
  | .rax => 1 | .rbx => 2 | .rcx => 3 | .rdx => 4 | .rbp => 5 | .rdi => 6 | .rsi => 7 | .r8 => 8
  | .r9 => 9 | .r10 => 10 | .r11 => 11 | .r12 => 12 | .r13 => 13 | .r14 => 14 | .r15 => 0xF00DCAFE

/-- Their frame at a breakpoint. -/
def breakpointState : CpuState :=
  cpuState (atCall 3 0x8000#64 0#64 (IsrSpec.interrupted counted)).mem
    ((atCall 3 0x8000#64 0#64 (IsrSpec.interrupted counted)).regs .rdi)

/-- The dump of a breakpoint: `rbp` and `rsi` are read in each other's place. -/
theorem report_readable_breakpoint : ∃ con' before report N,
    runOps 0x1000 (isrReport breakpointState) { mem := fun _ => 0, strs := [] } = .ok con' ∧
    (after (Dd.Com.step 0x3F8) (Dd.Com.start {} con'.strs) Dd.Com.byTurns N).uart.line =
    before ++ report ∧
      readDump report 0 = (1, 2, 3, 4) ∧ readDump report 1 = (5, 6, 7, 8) ∧
      readDump report 2 = (9, 10, 11, 12) ∧ readDump report 3 = (13, 14, 0xF00DCAFE, 16) ∧
      readDump report 4 = (0x8000, 0x202, 8, 0x1000) := by
  obtain ⟨con', before, report, h1, ⟨N, hN⟩, h2⟩ := (report_readable (show 0x1000 ≠ 0 by decide)
    (show 3 < 256 by decide) 0x8000#64 0#64 (IsrSpec.interrupted counted) (fun _ => 0) (u := {}) rfl
    Dd.Com.fair_byTurns).1 (Or.inl (by decide))
  exact ⟨con', before, report, N, h1, hN N le_rfl, h2 0, h2 1, h2 2, h2 3, h2 4⟩

end FusionCore.Cpu.Report
