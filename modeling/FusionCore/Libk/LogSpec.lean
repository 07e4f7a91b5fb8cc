import FusionCore.Libk.Log
import FusionCore.Dd.ComSpec

/-! # What a message puts on the serial line (`libk/serial/debug.c`, `libk/serial/log.c`)

Formats are put together from plain characters and single directives, and their texts with them
(`Renders.append`). A formatted text is read back from its buffer up to its first zero
(`cstr_written`), so `debug` sends the text of its format (`debug_eq`) and `log_impl` the colour, the
line and the colour reset (`logImpl_eq`; the calls of `debug_set_col` are in `logImpl_source`), with
`lineOf` the line. `logs_eq` is the same for any sequence of messages, up to the first `PANIC`, and
`logs_reach_line` follows it to the line of the serial port. The buffers have 5120 characters and the
formatter does not know it: `debug_inside_iff`. -/

namespace FusionCore.Libk.Log

open FusionCore.Lib.ByteMem FusionCore.Libk.Kprintf FusionCore.Lib.Schedule
open FusionCore.Dd.Com (Uart Turn)

/-! ### Texts of formats -/

theorem render_append (is js : List Item) (va : List Arg) :
    render (is ++ js) va =
      (render is va).bind fun r => (render js r.2).map fun r' => (r.1 ++ r'.1, r'.2) := by
  induction is generalizing va with
  | nil =>
    rw [List.nil_append, render]
    simp only [Except.bind]
    cases render js va <;> rfl
  | cons i is ih =>
    cases i with
    | lit c =>
      rw [List.cons_append, render, render, ih]
      simp only [bind, Except.bind]
      cases render is va with
      | error e => rfl
      | ok r =>
        simp only
        cases render js r.2 <;> rfl
    | dir x c =>
      rw [List.cons_append, render, render]
      simp only [bind, Except.bind]
      cases x.fields [] va with
      | error e => rfl
      | ok f =>
        simp only
        cases convText c f with
        | error e => rfl
        | ok r =>
          simp only
          rw [ih]
          cases render is r.2 with
          | error e => rfl
          | ok r' =>
            simp only [Except.bind]
            cases render js r'.2 with
            | error e => rfl
            | ok r'' =>
              simp only [Except.map]
              rw [List.append_assoc]

/-- The format puts out the text over `va` and leaves `va'`. -/
def Renders (fmt : List UInt8) (va : List Arg) (text : List UInt8) (va' : List Arg) : Prop :=
  ∃ is : List Item, (∀ i ∈ is, i.WF) ∧ fmt = formatOf is ∧ render is va = .ok (text, va')

/-- The format stops with an error over `va`. -/
def Stops (fmt : List UInt8) (va : List Arg) (e : Err) : Prop :=
  ∃ is : List Item, (∀ i ∈ is, i.WF) ∧ fmt = formatOf is ∧ render is va = .error e

theorem Renders.prints {fmt text : List UInt8} {va va' : List Arg} (h : Renders fmt va text va') :
    Prints fmt va text := by
  obtain ⟨is, hw, hf, hr⟩ := h
  exact ⟨is, va', hw, hf, hr⟩

theorem Renders.append {fmt fmt' t t' : List UInt8} {va va' va'' : List Arg} (h : Renders fmt va t va')
    (h' : Renders fmt' va' t' va'') : Renders (fmt ++ fmt') va (t ++ t') va'' := by
  obtain ⟨is, hw, rfl, hr⟩ := h
  obtain ⟨is', hw', rfl, hr'⟩ := h'
  refine ⟨is ++ is', List.forall_mem_append.mpr ⟨hw, hw'⟩, List.flatMap_append.symm, ?_⟩
  rw [render_append, hr]
  simp only [Except.bind, hr', Except.map]

theorem Renders.stops {fmt fmt' t : List UInt8} {va va' : List Arg} {e : Err} (h : Renders fmt va t va')
    (h' : Stops fmt' va' e) : Stops (fmt ++ fmt') va e := by
  obtain ⟨is, hw, rfl, hr⟩ := h
  obtain ⟨is', hw', rfl, hr'⟩ := h'
  refine ⟨is ++ is', List.forall_mem_append.mpr ⟨hw, hw'⟩, List.flatMap_append.symm, ?_⟩
  rw [render_append, hr]
  simp only [Except.bind, hr', Except.map]

theorem renders_lits {l : List UInt8} (h : ∀ c ∈ l, c ≠ ch '%') (va : List Arg) : Renders l va l va := by
  induction l with
  | nil => exact ⟨[], by simp, rfl, rfl⟩
  | cons c l ih =>
    obtain ⟨is, hw, hf, hr⟩ := ih fun d hd => h d (List.mem_cons_of_mem _ hd)
    refine ⟨.lit c :: is, List.forall_mem_cons.mpr ⟨h c (List.mem_cons_self ..), hw⟩,
      congrArg (c :: ·) hf, ?_⟩
    rw [render, hr]
    rfl

theorem Stops.append {fmt l : List UInt8} {va : List Arg} {e : Err} (h : Stops fmt va e)
    (hl : ∀ c ∈ l, c ≠ ch '%') : Stops (fmt ++ l) va e := by
  obtain ⟨is, hw, rfl, hr⟩ := h
  obtain ⟨is', hw', hf', -⟩ := renders_lits hl []
  refine ⟨is ++ is', List.forall_mem_append.mpr ⟨hw, hw'⟩, ?_, ?_⟩
  · rw [hf']
    exact List.flatMap_append.symm
  · rw [render_append, hr]
    rfl

theorem render_dir {x : Spec} {c : UInt8} {va : List Arg} {f : Fields} (hf : x.fields [] va = .ok f) :
    render [.dir x c] va = convText c f := by
  rw [render, hf]
  simp only [bind, Except.bind]
  cases convText c f <;> simp [render]

theorem renders_dir {x : Spec} {c : UInt8} {va va' : List Arg} {f : Fields} {t : List UInt8}
    (hw : (Item.dir x c).WF)
    (hf : x.fields [] va = .ok f) (hc : convText c f = .ok (t, va')) :
    Renders (ch '%' :: (x.chars ++ [c])) va t va' :=
  ⟨[.dir x c], by simpa using hw, (List.append_nil _).symm, (render_dir hf).trans hc⟩

theorem fields_plain (va : List Arg) : ({} : Spec).fields
    [] va = .ok { flags := {}, format := [], va } := rfl

theorem renders_s {a : Arg} {s : List UInt8} (ha : a.str = some s) (va : List Arg) :
    Renders [ch '%', ch 's'] (a :: va) s va := by
  obtain ⟨word, str⟩ := a
  obtain rfl : str = some s := ha
  have h : convText (ch 's') { flags := {}, format := [], va := ⟨word, some s⟩ :: va } =
      .ok (strText { flags := {}, format := [], va := ⟨word, some s⟩ :: va } s, va) := rfl
  exact renders_dir (by decide) (fields_plain _) (h.trans (by simp [strText]))

theorem stops_s {a : Arg} (ha : a.str = none) (va : List Arg) :
    Stops [ch '%', ch 's'] (a :: va) .noString := by
  obtain ⟨word, str⟩ := a
  obtain rfl : str = none := ha
  have h : convText (ch 's') { flags := {}, format := [], va := ⟨word, none⟩ :: va } =
    .error .noString := rfl
  exact ⟨[.dir {} (ch 's')], by simp only [List.forall_mem_singleton]; decide, rfl,
    (render_dir (fields_plain _)).trans h⟩

/-- The text of a plain `%d`. -/
def decText (a : Arg) : List UInt8 := intText (ch 'd') { flags := {}, format := [], va := [] } a

theorem renders_d (a : Arg) (va : List Arg) : Renders [ch '%', ch 'd'] (a :: va) (decText a) va :=
  renders_dir (by decide) (fields_plain _) rfl

/-! ### Strings in memory -/

/-- A text up to its first zero. -/
def upToZero (text : List UInt8) : List UInt8 := text.takeWhile (· ≠ 0)

theorem upToZero_cons (c : UInt8) (text : List UInt8) :
    upToZero (c :: text) = if c = 0 then [] else c :: upToZero text := by
  unfold upToZero
  rw [List.takeWhile_cons]
  by_cases hc : c = 0 <;> simp [hc]

theorem upToZero_eq {text : List UInt8} (h : ∀ c ∈ text, c ≠ 0) : upToZero text = text := by
  induction text with
  | nil => rfl
  | cons c text ih =>
    rw [upToZero_cons, if_neg (h c (List.mem_cons_self ..)), ih fun d hd =>
      h d (List.mem_cons_of_mem _ hd)]

theorem upToZero_ne_zero (text : List UInt8) : ∀ c ∈ upToZero text, c ≠ 0 := fun c hc => by
  simpa using List.all_takeWhile (p := fun c : UInt8 => decide (c ≠ 0)) |> List.all_eq_true.mp |> (· c hc)

theorem cstr_eq {m : Mem} {text : List UInt8} {k a : ℕ}
    (hs : ∀ i, i < text.length → m (a + i) = text.getD i 0)
    (ht : m (a + text.length) = 0) (hk : text.length < k) : cstr m k a = some (upToZero text) := by
  induction text generalizing k a with
  | nil =>
    obtain ⟨k, rfl⟩ := Nat.exists_eq_add_of_lt hk
    rw [cstr, if_pos (by simpa using ht)]
    rfl
  | cons c text ih =>
    obtain ⟨k, rfl⟩ : ∃ k', k = k' + 1 := ⟨k - 1, by omega⟩
    have h0 : m a = c := hs 0 (by simp)
    rw [cstr, h0, upToZero_cons]
    by_cases hc : c = 0
    · rw [if_pos hc, if_pos hc]
    · have hs' : ∀ i, i < text.length → m (a + 1 + i) = text.getD i 0 := fun i hi => by
        have h := hs (i + 1) (by simpa using hi)
        rwa [List.getD_cons_succ, ← Nat.add_assoc, Nat.add_right_comm] at h
      have ht' : m (a + 1 + text.length) = 0 := by
        rwa [List.length_cons, ← Nat.add_assoc, Nat.add_right_comm] at ht
      rw [if_neg hc, if_neg hc, ih hs' ht' (by simpa using hk)]
      rfl

/-- **A formatted text is read back up to its first zero.** -/
theorem cstr_written {buffer count k : ℕ} {text : List UInt8} (hc : text.length < count)
    (hk : text.length < k)
    (m : Mem) : cstr (written buffer count text m) k buffer = some (upToZero text) := by
  refine cstr_eq (fun i hi => ?_) ?_ hk
  · rw [written, if_pos (by omega), Nat.add_sub_cancel_left]
  · rw [written, if_neg (by omega), if_pos (by omega)]

/-! ### `debug` -/

/-- The size of the two buffers. -/
def bufSize : ℕ := 5120

section
variable {dbgBuf logBuf : ℕ} {fmt : List UInt8} {va : List Arg} {text : List UInt8}

/-- Memory with a text in a buffer whose size is given as `(size_t)-1`. -/
def unbounded (buffer : ℕ) (text : List UInt8) (m : Mem) : Mem := written buffer (2 ^ 64 - 1) text m

theorem vsnprintf_unbounded (hb : dbgBuf ≠ 0) (h : Prints fmt va text) (m : Mem) :
    vsnprintfBuffer dbgBuf (2 ^ 64 - 1) fmt va m =
      .ok (unbounded dbgBuf text m, (BitVec.ofNat 32 text.length).toInt) :=
  (vsnprintfBuffer_ok_iff hb (by norm_num) fmt va m _).mpr ⟨text, h, rfl⟩

theorem unbounded_of_not_mem {m : Mem} {a n : ℕ} (hn : text.length < n)
    (ha : a ∉ Set.Ico dbgBuf (dbgBuf + n)) :
    unbounded dbgBuf text m a = m a := by
  have h : ¬ (dbgBuf ≤ a ∧ a < dbgBuf + n) := ha
  have h' : ¬ (2 ^ 64 - 1 ≠ 0 ∧ a = dbgBuf + min (2 ^ 64 - 1 - 1) text.length) := by omega
  rw [unbounded, written, if_neg (by omega), if_neg h']

/-- **`debug` sends the text of its format**, up to its first zero. -/
theorem debug_eq (hb : dbgBuf ≠ 0) (h : Prints fmt va text) (hl : text.length < 2 ^ 64 - 1)
    (con : Console) :
    debug dbgBuf fmt va con =
      .ok { mem := unbounded dbgBuf text con.mem
            strs := con.strs ++ [upToZero text]
            halted := con.halted } := by
  unfold debug
  rw [vsnprintf_unbounded hb h]
  simp only [bind, Except.bind]
  rw [unbounded, cstr_written hl (by omega)]
  rfl

/-- **`debug` stays inside its buffer if and only if the text is shorter.** -/
theorem debug_inside_iff (hb : dbgBuf ≠ 0) (h : Prints fmt va text) (hl : text.length < 2 ^ 64 - 1) :
    (∀ con con', debug dbgBuf fmt va con = .ok con' →
      ∀ a, a ∉ Set.Ico dbgBuf (dbgBuf + bufSize) → con'.mem a = con.mem a) ↔ text.length < bufSize := by
  constructor
  · intro hall
    by_contra hge
    -- a memory whose byte behind the buffer is not the one that is written there
    let c := if bufSize < text.length then text.getD bufSize 0 else 0
    have hd := debug_eq hb h hl ⟨fun _ => c + 1, [], false⟩
    have ha := hall _ _ hd (dbgBuf + bufSize) (fun hm => absurd hm.2 (lt_irrefl _))
    have hw : unbounded dbgBuf text (fun _ => c + 1) (dbgBuf + bufSize) = c := by
      rw [unbounded, written]
      by_cases hlt : bufSize < text.length
      · rw [if_pos (by omega), Nat.add_sub_cancel_left]
        exact (if_pos hlt).symm
      · rw [if_neg (by omega), if_pos (by omega)]
        exact (if_neg hlt).symm
    have h1 := congrArg UInt8.toNat (hw.symm.trans ha)
    have h2 := c.toNat_lt
    rw [UInt8.toNat_add] at h1
    simp at h1
    omega
  · intro hlt con con' hd a ha
    rw [debug_eq hb h hl con] at hd
    rw [← Except.ok.inj hd]
    exact unbounded_of_not_mem hlt ha

/-- A text of three characters stays inside. -/
theorem debug_inside_iff_ok : (str "ok\n").length = 3 ∧
    ∀ con con', debug 0x1000 (str "ok\n") [] con = .ok con' →
      ∀ a, a ∉ Set.Ico 0x1000 (0x1000 + bufSize) → con'.mem a = con.mem a := by
  have hprints : Prints (str "ok\n") [] (str "ok\n") := prints_iff.mpr ⟨_, _, rfl⟩
  have hlen : (str "ok\n").length = 3 := by simp [str]
  exact ⟨hlen, (debug_inside_iff (by decide) hprints (by rw [hlen]; norm_num)).mpr
    (by rw [hlen]; norm_num [bufSize])⟩

/-! ### Messages -/

theorem debugSetCol_color (dbgBuf logBuf : ℕ) (self selfLine file lineNr condStr : Arg) (con : Console)
    (hh : con.halted = false) {col : List UInt8}
    (hc : col ∈ [LogStatus.info.color, LogStatus.warning.color, LogStatus.panic.color,
      LogStatus.success.color, LogStatus.fail.color, termColorReset]) :
    debugSetCol dbgBuf logBuf self selfLine file lineNr condStr col con =
    .ok (comSendString col con) := by
  have hcol : decide (col.getD 0 0 = 27 ∧ col.getD 1 0 = ch '[') = true := by
    revert col
    decide
  unfold debugSetCol kassert
  rw [hcol]
  simp [bind, Except.bind, hh]

theorem halted_debug {dbgBuf : ℕ} {fmt : List UInt8} {va : List Arg} {con con' : Console}
    (h : debug dbgBuf fmt va con = .ok con') : con'.halted = con.halted := by
  unfold debug at h
  cases hv : vsnprintfBuffer dbgBuf (2 ^ 64 - 1) fmt va con.mem with
  | error e =>
    rw [hv] at h
    cases h
  | ok r =>
    simp only [hv, bind, Except.bind] at h
    cases hs : cstr r.1 (2 ^ 64) dbgBuf with
    | none =>
      rw [hs] at h
      cases h
    | some s =>
      rw [hs] at h
      rw [← Except.ok.inj h]
      rfl

/-- **`log_impl` with the calls of `debug_set_col`**, as the source has it: their asserts do not fail. -/
theorem logImpl_source (dbgBuf logBuf : ℕ) (self selfLine file lineNr condStr : Arg) (c : LogCall)
    (con : Console) (hh : con.halted = false) :
    logImpl dbgBuf logBuf c con =
      vsnprintfBuffer logBuf (2 ^ 64 - 1) c.fmt c.va con.mem >>= fun r =>
        debugSetCol dbgBuf logBuf self selfLine file lineNr condStr c.status.color
          { con with mem := r.1 } >>=
          fun con =>
            debug dbgBuf c.status.format
                [c.file, c.lineNr, ⟨BitVec.ofNat 64 logBuf, cstr r.1 (2 ^ 64) logBuf⟩] con >>=
              fun con =>
                if c.status = .panic then .ok { con with halted := true }
                else debugSetCol dbgBuf logBuf self selfLine file lineNr condStr termColorReset con := by
  have hcolor : c.status.color ∈ [LogStatus.info.color, LogStatus.warning.color, LogStatus.panic.color,
      LogStatus.success.color, LogStatus.fail.color, termColorReset] := by cases c.status <;> simp
  unfold logImpl
  cases hv : vsnprintfBuffer logBuf (2 ^ 64 - 1) c.fmt c.va con.mem with
  | error e => rfl
  | ok r =>
    simp only [bind, Except.bind]
    rw [debugSetCol_color dbgBuf logBuf self selfLine file lineNr condStr
      { con with mem := r.1 } hh hcolor]
    simp only
    generalize hd : debug dbgBuf c.status.format _ _ = d
    cases d with
    | error e => rfl
    | ok con' =>
      have hh' : con'.halted = false := (halted_debug hd).trans hh
      simp only
      rw [debugSetCol_color dbgBuf logBuf self selfLine file lineNr condStr con' hh' (by simp)]

theorem mem_decText {a : Arg} {c : UInt8} (h : c ∈ decText a) : c ≠ 0 :=
  intText_ne_zero (Or.inl rfl) a c h

/-- The line of a message. -/
def lineOf (status : LogStatus) (file : List UInt8) (lineNr : Arg) (text : List UInt8) : List UInt8 :=
  status.head ++ (file ++ (str ":" ++ (decText lineNr ++ (str " -> " ++ upToZero text))))

theorem head_chars (status : LogStatus) : ∀ c ∈ status.head, c ≠ ch '%' ∧ c ≠ 0 := by
  cases status <;> simp [LogStatus.head, str, ch]

theorem prints_line (status : LogStatus) {f n t : Arg} {file text : List UInt8} (hf : f.str = some file)
    (ht : t.str = some (upToZero text)) : Prints status.format [f, n, t] (lineOf status file n text) := by
  have hfmt : status.format =
      status.head ++ ([ch '%', ch 's'] ++ (str ":" ++ ([ch '%', ch 'd'] ++ (str " -> " ++
      [ch '%', ch 's'])))) := by simp [LogStatus.format, str]
  have hcolon : ∀ c ∈ str ":", c ≠ ch '%' := by simp [str, ch]
  have harrow : ∀ c ∈ str " -> ", c ≠ ch '%' := by simp [str, ch]
  rw [hfmt]
  have htail := (renders_s hf [n, t]).append ((renders_lits hcolon _).append ((renders_d n [t]).append
    ((renders_lits harrow _).append (renders_s ht []))))
  exact ((renders_lits (fun c hc => (head_chars status c hc).1) _).append htail).prints

theorem lineOf_ne_zero (status : LogStatus) {file : List UInt8} (hf : ∀ c ∈ file, c ≠ 0) (lineNr : Arg)
    (text : List UInt8) : ∀ c ∈ lineOf status file lineNr text, c ≠ 0 := by
  have h2 : ∀ c ∈ str ":", c ≠ 0 := by simp [str, ch]
  have h3 : ∀ c ∈ str " -> ", c ≠ 0 := by simp [str, ch]
  intro c hc
  simp only [lineOf, List.mem_append] at hc
  rcases hc with h | h | h | h | h | h
  · exact (head_chars status c h).2
  · exact hf c h
  · exact h2 c h
  · exact mem_decText h
  · exact h3 c h
  · exact upToZero_ne_zero text c h

/-- What a message hands to `com_send_string`. -/
def callStrs (c : LogCall) (file text : List UInt8) : List (List UInt8) :=
  [c.status.color, lineOf c.status file c.lineNr text] ++
    if c.status = .panic then [] else [termColorReset]

/-- The message has a file name and a text. -/
structure LogCall.Prints (c : LogCall) (file text : List UInt8) : Prop where
  name : c.file.str = some file
  name_ne_zero : ∀ x ∈ file, x ≠ 0
  message : Kprintf.Prints c.fmt c.va text

/-- **What `log_impl` does.** -/
theorem logImpl_eq (hb : dbgBuf ≠ 0) (hb' : logBuf ≠ 0) {c : LogCall} {file text : List UInt8}
    (h : c.Prints file text) (ht : text.length < 2 ^ 64 - 1)
    (hl : (lineOf c.status file c.lineNr text).length < 2 ^ 64 - 1) (con : Console) :
    logImpl dbgBuf logBuf c con =
      .ok { mem := unbounded dbgBuf (lineOf c.status file c.lineNr text) (unbounded logBuf text con.mem)
            strs := con.strs ++ callStrs c file text
            halted := con.halted || decide (c.status = .panic) } := by
  have hline := prints_line c.status (n := c.lineNr) h.name
    (t := { word := BitVec.ofNat 64 logBuf, str := some (upToZero text) }) rfl
  unfold logImpl
  rw [vsnprintf_unbounded hb' h.message]
  simp only [bind, Except.bind]
  rw [show cstr (unbounded logBuf text con.mem) (2 ^ 64) logBuf = some (upToZero text) from
    cstr_written ht (by omega) con.mem, debug_eq hb hline hl,
    upToZero_eq (lineOf_ne_zero c.status h.name_ne_zero c.lineNr text)]
  simp only
  by_cases hp : c.status = .panic
  · rw [if_pos hp]
    simp [callStrs, comSendString, hp]
  · rw [if_neg hp]
    simp [callStrs, comSendString, hp]

/-! ### Sequences of messages -/

/-- What the messages hand to `com_send_string`, up to the first `PANIC`. -/
def shown (file text : LogCall → List UInt8) : List LogCall → List (List UInt8)
  | [] => []
  | c :: cs => callStrs c (file c) (text c) ++ if c.status = .panic then [] else shown file text cs

variable {file text : LogCall → List UInt8}

/-- **A sequence of messages that fit into the buffers** is sent up to the first `PANIC`, and memory
outside the buffers stays as it is. -/
theorem logs_eq (hb : dbgBuf ≠ 0) (hb' : logBuf ≠ 0) {cs : List LogCall}
    (h : ∀ c ∈ cs, c.Prints (file c) (text c) ∧ (text c).length < bufSize ∧
      (lineOf c.status (file c) c.lineNr (text c)).length < bufSize) (con : Console)
    (hh : con.halted = false) :
    ∃ con', logs dbgBuf logBuf cs con = .ok con' ∧ con'.strs = con.strs ++ shown file text cs ∧
      (con'.halted = true ↔ ∃ c ∈ cs, c.status = .panic) ∧
      ∀ a, a ∉ Set.Ico dbgBuf (dbgBuf + bufSize) → a ∉ Set.Ico logBuf (logBuf + bufSize) →
        con'.mem a = con.mem a := by
  induction cs generalizing con with
  | nil => exact ⟨con, rfl, by simp [shown], by simp [hh], fun _ _ _ => rfl⟩
  | cons c cs ih =>
    obtain ⟨hc, ht, hl⟩ := h c (List.mem_cons_self ..)
    have hlarge : bufSize ≤ 2 ^ 64 - 1 := by norm_num [bufSize]
    let con₁ : Console :=
      { mem := unbounded dbgBuf (lineOf c.status (file c) c.lineNr (text c))
          (unbounded logBuf (text c) con.mem)
        strs := con.strs ++ callStrs c (file c) (text c)
        halted := con.halted || decide (c.status = .panic) }
    have heq : logImpl dbgBuf logBuf c con = .ok con₁ :=
      logImpl_eq hb hb' hc (lt_of_lt_of_le ht hlarge) (lt_of_lt_of_le hl hlarge) con
    have hmem : ∀ a, a ∉ Set.Ico dbgBuf (dbgBuf + bufSize) → a ∉ Set.Ico logBuf (logBuf + bufSize) →
        con₁.mem a = con.mem a := fun a h1 h2 =>
          (unbounded_of_not_mem hl h1).trans (unbounded_of_not_mem ht h2)
    have hhalt : con₁.halted = decide (c.status = .panic) := by simp [con₁, hh]
    rw [logs, if_neg (by rw [hh]; exact Bool.false_ne_true), heq]
    simp only [bind, Except.bind]
    by_cases hp : c.status = .panic
    · -- nothing comes after the loop
      have hh₁ : con₁.halted = true := by rw [hhalt, hp]; rfl
      refine ⟨con₁, ?_, ?_, ?_, hmem⟩
      · cases cs with
        | nil => rfl
        | cons c' cs => rw [logs, if_pos hh₁]
      · simp [con₁, shown, hp]
      · simp [hh₁, hp]
    · obtain ⟨con', h1, h2, h3, h4⟩ := ih (fun c hc => h c (List.mem_cons_of_mem _ hc)) con₁
        (by rw [hhalt]; exact decide_eq_false hp)
      refine ⟨con', h1, ?_, ?_, fun a ha ha' => (h4 a ha ha').trans (hmem a ha ha')⟩
      · rw [h2, shown, if_neg hp]
        exact List.append_assoc ..
      · rw [h3]
        simp [hp]

/-- **The messages reach the line of the serial port**: on every fair schedule of the processor and the
chip, from some time on all that was sent, in order, and nothing else has gone out. -/
theorem logs_reach_line (hb : dbgBuf ≠ 0) (hb' : logBuf ≠ 0) {cs : List LogCall}
    (h : ∀ c ∈ cs, c.Prints (file c) (text c) ∧ (text c).length < bufSize ∧
      (lineOf c.status (file c) c.lineNr (text c)).length < bufSize) (m : Mem) {u : Uart}
    (hu : u.dlab = false) {σ : ℕ → Turn} (hf : Fair σ) :
    ∃ con', logs dbgBuf logBuf cs { mem := m, strs := [] } = .ok con' ∧
      ∃ N, ∀ n, N ≤ n → (after (Dd.Com.step 0x3F8) (Dd.Com.start u con'.strs) σ n).uart.line =
        u.line ++ u.waiting ++ (shown file text cs).flatten := by
  obtain ⟨con', h1, h2, -, -⟩ := logs_eq hb hb' h { mem := m, strs := [] } rfl
  obtain ⟨N, hN⟩ := Dd.Com.sends_all hu 0x3F8 con'.strs hf
  rw [List.nil_append] at h2
  exact ⟨con', h1, N, fun n hn => h2 ▸ (hN n hn).2⟩

end

/-- Three messages, the second one a `PANIC`. -/
def threeCalls : List LogCall :=
  [⟨⟨0#64, some (str "kernel.c")⟩, ⟨52#64, none⟩, .info, str "up\n", []⟩,
    ⟨⟨0#64, some (str "phys.c")⟩, ⟨31#64, none⟩, .panic, str "no %s\n", [⟨0#64, some (str "page")⟩]⟩,
    ⟨⟨0#64, some (str "kernel.c")⟩, ⟨53#64, none⟩, .info, str "up\n", []⟩]

/-- Their files and texts. -/
def fileOf (c : LogCall) : List UInt8 := c.file.str.getD []

def textOf (c : LogCall) : List UInt8 := if c.status = .panic then str "no page\n" else str "up\n"

theorem logs_reach_line_up : ∃ con', logs 0x1000 0x3000 threeCalls
    { mem := fun _ => 0, strs := [] } = .ok con' ∧
    ∃ N, ∀ n, N ≤ n → (after (Dd.Com.step 0x3F8) (Dd.Com.start {} con'.strs) Dd.Com.byTurns n).uart.line =
      27 :: str "[0;36m[INFO]    | kernel.c:52 -> up\n" ++ (termColorReset ++
        27 :: str "[0;31m[PANIC]   | phys.c:31 -> no page\n") := by
  have hprints : ∀ c ∈ threeCalls, c.Prints (fileOf c) (textOf c) ∧ (textOf c).length < bufSize ∧
      (lineOf c.status (fileOf c) c.lineNr (textOf c)).length < bufSize := by
    intro c hc
    simp only [threeCalls, List.mem_cons, List.not_mem_nil, or_false] at hc
    rcases hc with rfl | rfl | rfl
    · exact ⟨⟨rfl, by simp [fileOf, str, ch], prints_iff.mpr ⟨_, _, rfl⟩⟩, by simp [textOf, str, bufSize],
        by decide +kernel⟩
    · exact ⟨⟨rfl, by simp [fileOf, str, ch], prints_iff.mpr ⟨_, _, rfl⟩⟩, by simp [textOf, str, bufSize],
        by decide +kernel⟩
    · exact ⟨⟨rfl, by simp [fileOf, str, ch], prints_iff.mpr ⟨_, _, rfl⟩⟩, by simp [textOf, str, bufSize],
        by decide +kernel⟩
  obtain ⟨con', h1, N, hN⟩ :=
    @logs_reach_line 0x1000 0x3000 fileOf textOf (by decide) (by decide) threeCalls
    hprints (fun _ => 0) {} rfl Dd.Com.byTurns Dd.Com.fair_byTurns
  exact ⟨con', h1, N, fun n hn => (hN n hn).trans (by decide +kernel)⟩

end FusionCore.Libk.Log
