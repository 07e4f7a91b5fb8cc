import FusionCore.Dd.Com
import FusionCore.Lib.Schedule

/-! # Strings on the serial line (`dd/com/com.c`)

While `com_send_string` runs, what the chip has been given and what the processor has still to send
make up the same text (`step_inv`): the processor writes a character only after it has seen that none
waits, and nobody else writes one, so none is lost. Hence on every schedule the chip has been given a
prefix of the text, in order and without a gap (`sends_in_order`), and on every fair one all of it
goes out on the line (`sends_all`); together they are `com_sends`. -/

namespace FusionCore.Dd.Com

open FusionCore.Lib.Schedule

/-! ### The chip -/

theorem dlab_tick (u : Uart) : u.tick.dlab = u.dlab := by
  unfold Uart.tick
  cases u.waiting <;> rfl

theorem sent_tick (u : Uart) : u.tick.sent = u.sent := by
  unfold Uart.tick Uart.sent
  cases hw : u.waiting with
  | nil => rw [hw]
  | cons c cs => simp

theorem waiting_tick (u : Uart) : u.tick.waiting = u.waiting.tail := by
  unfold Uart.tick
  cases hw : u.waiting with
  | nil => exact hw
  | cons c cs => rfl

theorem transmitEmpty_iff (u : Uart) (port : ℕ) : comIsTransmitEmpty u port = true ↔ u.waiting = [] := by
  have hne : port + 5 ≠ port := by omega
  unfold comIsTransmitEmpty Uart.ioInb Uart.lsr
  rw [if_neg hne, if_pos rfl]
  by_cases hr : u.received = [] <;> by_cases hw : u.waiting = [] <;> simp [hr, hw]

theorem depth_pos (u : Uart) : 0 < u.depth := by
  unfold Uart.depth
  split_ifs <;> norm_num

theorem ioOutb_data {u : Uart} (hd : u.dlab = false) (hw : u.waiting = []) (port : ℕ) (c : UInt8) :
    u.ioOutb port port c.toBitVec = { u with waiting := [c] } := by
  rw [Uart.ioOutb, if_pos rfl, if_neg (by rw [hd]; exact Bool.false_ne_true), Uart.transmit,
    if_pos (by rw [hw]; exact depth_pos u), hw]
  rfl

/-- `com_init` makes the chip ready for sending from any state, at divisor 3 with eight data bits; what
still waits to be sent or to be read is dropped. With the divisor latch open its first write goes to the
latch, and the interrupts stay as they are. -/
theorem comInit_ready (u : Uart) (port : ℕ) :
    comInit u port =
      { ier := if u.dlab then u.ier else 0x00#8
        lcr := 0x03#8, mcr := 0x0B#8, dll := 0x03#8, dlm := 0x00#8
        fifoEnabled := true, waiting := [], line := u.line, received := [] } := by
  obtain ⟨ier, lcr, mcr, dll, dlm, en, waiting, line, received⟩ := u
  cases hd : lcr[7] <;> simp [comInit, Uart.ioOutb, Uart.dlab, Uart.fifoControl, hd]

/-! ### The invariant -/

/-- What the processor has still to send. -/
def Sender.rest (st : Sender) : List UInt8 := st.todo.flatten

/-- The text is made up of what the chip has been given and what is still to be sent; behind the loop of
`com_send_char` no character waits. -/
structure Inv (text : List UInt8) (st : Sender) : Prop where
  dlab : st.uart.dlab = false
  sent : st.uart.sent ++ st.rest = text
  out : st.pc = .out → st.uart.waiting = []

variable {text : List UInt8} {port : ℕ} {st : Sender}

/-- **What a turn preserves.** -/
theorem step_inv (t : Turn) (st : Sender) (h : Inv text st) : Inv text (step port t st) := by
  obtain ⟨todo, pc, u⟩ := st
  obtain ⟨hd, hs, ho⟩ := h
  cases t with
  | chip =>
    refine ⟨(dlab_tick u).trans hd, ?_, fun h => ?_⟩
    · rw [← hs]
      exact congrArg (· ++ _) (sent_tick u)
    · change u.tick.waiting = []
      rw [waiting_tick, ho h, List.tail_nil]
  | cpu =>
    cases todo with
    | nil => exact ⟨hd, hs, ho⟩
    | cons str strs =>
      cases str with
      | nil => exact ⟨hd, hs, nofun⟩
      | cons c str =>
        cases pc with
        | test => exact ⟨hd, hs, nofun⟩
        | poll =>
          by_cases he : comIsTransmitEmpty u port = true
          · simp only [step, Sender.cpu, he, if_true]
            exact ⟨hd, hs, fun _ => (transmitEmpty_iff u port).mp he⟩
          · simp only [step, Sender.cpu, he]
            exact ⟨hd, hs, ho⟩
        | out =>
          have hw : u.waiting = [] := ho rfl
          simp only [step, Sender.cpu]
          rw [ioOutb_data hd hw]
          refine ⟨hd, ?_, nofun⟩
          rw [← hs]
          simp [Uart.sent, Sender.rest, hw]

/-! ### Progress -/

/-- Everything has gone out on the line. -/
def Done (st : Sender) : Prop := st.todo = [] ∧ st.uart.waiting = []

/-- The turns that are still needed, at most. -/
def rank (st : Sender) : ℕ :=
  5 * st.rest.length + 3 * st.todo.length + st.uart.waiting.length +
    match st.pc with
    | .test => 2
    | .poll => 1
    | .out => 0

/-- Who can bring the rank down. -/
def helper (st : Sender) : Turn :=
  match st.todo with
  | [] => .chip
  | [] :: _ => .cpu
  | (_ :: _) :: _ => if st.pc = .poll ∧ st.uart.waiting ≠ [] then .chip else .cpu

theorem rank_chip (port : ℕ) (st : Sender) :
    step port .chip st = st ∧ st.uart.waiting = [] ∨ rank (step port .chip st) < rank st := by
  obtain ⟨todo, pc, u⟩ := st
  cases hw : u.waiting with
  | nil =>
    refine Or.inl ⟨?_, rfl⟩
    simp only [step, Uart.tick, hw]
  | cons c cs =>
    right
    simp only [step, rank, waiting_tick, hw, List.tail_cons, List.length_cons, Sender.rest]
    omega

theorem rank_cpu (port : ℕ) (h : Inv text st) :
    step port .cpu st = st ∧ (st.todo = [] ∨ st.pc = .poll ∧ st.uart.waiting ≠ [] ∧ helper st = .chip) ∨
      rank (step port .cpu st) < rank st := by
  obtain ⟨todo, pc, u⟩ := st
  obtain ⟨hd, -, ho⟩ := h
  cases todo with
  | nil => exact Or.inl ⟨rfl, Or.inl rfl⟩
  | cons str strs =>
    cases str with
    | nil =>
      right
      simp only [step, Sender.cpu, rank, Sender.rest, List.flatten_cons, List.nil_append,
        List.length_cons]
      cases pc <;> simp only <;> omega
    | cons c str =>
      cases pc with
      | test =>
        right
        simp only [step, Sender.cpu, rank, Sender.rest]
        omega
      | poll =>
        by_cases hw : u.waiting = []
        · right
          simp only [step, Sender.cpu, (transmitEmpty_iff u port).mpr hw, if_true, rank, Sender.rest]
          omega
        · left
          have he : ¬ comIsTransmitEmpty u port = true := fun h => hw ((transmitEmpty_iff u port).mp h)
          refine ⟨?_, Or.inr ⟨rfl, hw, ?_⟩⟩
          · simp only [step, Sender.cpu, he]
            rfl
          · simp only [helper]
            rw [if_pos ⟨trivial, hw⟩]
      | out =>
        right
        have hw : u.waiting = [] := ho rfl
        simp only [step, Sender.cpu]
        rw [ioOutb_data hd hw]
        simp only [rank, Sender.rest, List.flatten_cons, List.length_append, List.length_cons, hw,
          List.length_nil]
        omega

theorem rank_helper (h : Inv text st) (hd : ¬ Done st) : rank (step port (helper st) st) < rank st := by
  have hc := rank_chip port st
  have hp := rank_cpu port h
  cases hh : helper st with
  | chip =>
    refine hc.resolve_left fun ⟨_, hw⟩ => ?_
    unfold helper at hh
    cases ht : st.todo with
    | nil => exact hd ⟨ht, hw⟩
    | cons str strs =>
      rw [ht] at hh
      cases str with
      | nil => cases hh
      | cons c str =>
        simp only at hh
        rw [if_neg fun h => h.2 hw] at hh
        cases hh
  | cpu =>
    refine hp.resolve_left fun ⟨_, h'⟩ => ?_
    rcases h' with ht | ⟨-, -, h'⟩
    · unfold helper at hh
      rw [ht] at hh
      cases hh
    · rw [hh] at h'
      cases h'

/-! ### Sending strings -/

/-- The chip can be used for sending, and no string is being sent. -/
def start (u : Uart) (strs : List (List UInt8)) : Sender := { todo := strs, uart := u }

theorem start_inv {u : Uart} (hu : u.dlab = false) (strs : List (List UInt8)) :
    Inv (u.sent ++ strs.flatten) (start u strs) := ⟨hu, rfl, nofun⟩

/-- **On every schedule the chip has been given a prefix of the text**, in order and without a gap,
and all of it when the last call has returned. -/
theorem sends_in_order {u : Uart} (hu : u.dlab = false) (port : ℕ) (strs : List (List UInt8))
    (σ : ℕ → Turn) (n : ℕ) :
    let st := after (step port) (start u strs) σ n
    st.uart.sent <+: u.sent ++ strs.flatten ∧
      (st.todo = [] → st.uart.sent = u.sent ++ strs.flatten) := by
  intro st
  have h : Inv (u.sent ++ strs.flatten) st :=
    after_invariant (start_inv hu strs) (fun t st => step_inv t st) n
  refine ⟨⟨st.rest, h.sent⟩, fun ht => ?_⟩
  have hs := h.sent
  rw [Sender.rest, ht, List.flatten_nil, List.append_nil] at hs
  exact hs

theorem done_step {port : ℕ} (t : Turn) (st : Sender) (h : Done st) : step port t st = st := by
  obtain ⟨todo, pc, u⟩ := st
  obtain ⟨ht, hw⟩ := h
  cases t with
  | cpu =>
    have ht' : todo = [] := ht
    subst ht'
    rfl
  | chip =>
    have hw' : u.waiting = [] := hw
    simp only [step, Uart.tick, hw']

/-- **On every fair schedule all calls return, and from some time on the whole text has gone out on the
line**: no character is lost, repeated or out of place. -/
theorem sends_all {u : Uart} (hu : u.dlab = false) (port : ℕ) (strs : List (List UInt8)) {σ : ℕ → Turn}
    (hf : Fair σ) :
    ∃ N, ∀ n, N ≤ n → (after (step port) (start u strs) σ n).todo = [] ∧
      (after (step port) (start u strs) σ n).uart.line = u.line ++ u.waiting ++ strs.flatten := by
  have hI : ∀ t st, Inv (u.sent ++ strs.flatten) st → Inv (u.sent ++ strs.flatten) (step port t st) :=
    fun t st => step_inv t st
  have h0 := start_inv hu strs
  have hsame : ∀ t st, Inv (u.sent ++ strs.flatten) st → step port t st = st ∨
      rank (step port t st) < rank st := by
    intro t st h
    cases t with
    | chip => exact (rank_chip port st).imp_left And.left
    | cpu => exact (rank_cpu port h).imp_left And.left
  obtain ⟨N, -, hN⟩ := eventually_of_rank Done rank helper hf h0 hI
    (fun t st h _ => by
      rcases hsame t st h with hs | hs
      · exact Or.inr (Or.inr ⟨congrArg rank hs, congrArg helper hs⟩)
      · exact Or.inr (Or.inl hs))
    (fun st h hd => Or.inr (rank_helper h hd)) 0
  refine ⟨N, fun n hn => ?_⟩
  have hdone : Done (after (step port) (start u strs) σ n) :=
    after_stable (P := Done) hN (fun t st h => by rw [done_step t st h]; exact h) hn
  have hinv : Inv (u.sent ++ strs.flatten) (after (step port) (start u strs) σ n) :=
    after_invariant h0 hI n
  refine ⟨hdone.1, ?_⟩
  have hs := hinv.sent
  rw [Sender.rest, hdone.1, List.flatten_nil, List.append_nil, Uart.sent, hdone.2, List.append_nil] at hs
  rw [hs]
  rfl

/-- **Sending strings**: safe on every schedule, and live on every fair one. -/
theorem com_sends {u : Uart} (hu : u.dlab = false) (port : ℕ) (strs : List (List UInt8)) (σ : ℕ → Turn) :
    (∀ n, (after (step port) (start u strs) σ n).uart.sent <+: u.sent ++ strs.flatten) ∧
    (∀ n, (after (step port) (start u strs) σ n).todo = [] →
      (after (step port) (start u strs) σ n).uart.sent = u.sent ++ strs.flatten) ∧
    (Fair σ → ∃ N, ∀ n, N ≤ n → (after (step port) (start u strs) σ n).todo = [] ∧
      (after (step port) (start u strs) σ n).uart.line = u.line ++ u.waiting ++ strs.flatten) :=
  ⟨fun n => (sends_in_order hu port strs σ n).1, fun n => (sends_in_order hu port strs σ n).2,
    sends_all hu port strs⟩

/-- The processor and the chip by turns. -/
def byTurns (n : ℕ) : Turn := if n % 2 = 0 then .cpu else .chip

theorem fair_byTurns : Fair byTurns := fun t n => by
  cases t with
  | cpu => exact ⟨2 * n, by omega, if_pos (by omega)⟩
  | chip => exact ⟨2 * n + 1, by omega, if_neg (by omega)⟩

/-- Two strings on the first port, after `com_init`. -/
theorem com_sends_two : ∃ N, ∀ n, N ≤ n →
    (after (step 0x3F8) (start (comInit {} 0x3F8) [[104, 105], [10]]) byTurns n).uart.line =
    [104, 105, 10] := by
  have hready := comInit_ready {} 0x3F8
  have hu : (comInit {} 0x3F8).dlab = false := by
    rw [hready]
    rfl
  obtain ⟨-, -, h⟩ := com_sends hu 0x3F8 [[104, 105], [10]] byTurns
  obtain ⟨N, hN⟩ := h fair_byTurns
  refine ⟨N, fun n hn => (hN n hn).2.trans ?_⟩
  rw [hready]
  rfl

end FusionCore.Dd.Com
