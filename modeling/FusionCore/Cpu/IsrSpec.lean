import FusionCore.Cpu.Isr

/-! # What an interrupt leaves of the interrupted code

At the call of `isr_handler` the 22 words from `rsp` up are the registers in the reverse of the order they
were pushed in, the vector, the error code and the frame of the processor (`words_isrEntry`). `popa64`
names the registers in the order of `pusha64` again, so it loads them the other way round
(`interrupt_mirrors`). -/

namespace FusionCore.Cpu.IsrSpec

open FusionCore.Lib.ByteMem FusionCore.Lib.Stack FusionCore.Cpu.Isr

variable {c : Processor}

/-- The stack of a processor. -/
def stackOf (c : Processor) : StackMem := ⟨c.mem, c.rsp⟩

/-! ### Pushing and popping registers -/

theorem pushes (rs : List Reg) (c : Processor) :
    stackOf (rs.foldl (fun c r => c.push (c.regs r)) c) = (stackOf c).pushAll (rs.map c.regs) ∧
    (rs.foldl (fun c r => c.push (c.regs r)) c).regs = c.regs := by
  induction rs generalizing c with
  | nil => exact ⟨rfl, rfl⟩
  | cons r rs ih => exact ih (c.push (c.regs r))

/-- **Popping a list of registers**: each gets its word. -/
theorem pops {rs : List Reg} (hd : rs.Nodup) (c : Processor) :
    (rs.foldl Processor.pop c).mem = c.mem ∧
    (rs.foldl Processor.pop c).rsp = c.rsp + BitVec.ofNat 64 (8 * rs.length) ∧
    ∀ r, (rs.foldl Processor.pop c).regs r =
      ((rs.zip (words c.mem c.rsp rs.length)).lookup r).getD (c.regs r) := by
  induction rs generalizing c with
  | nil => exact ⟨rfl, (BitVec.add_zero _).symm, fun r => rfl⟩
  | cons q rs ih =>
    obtain ⟨hq, hd⟩ := List.nodup_cons.mp hd
    obtain ⟨h1, h2, h3⟩ := ih hd (c.pop q)
    refine ⟨h1, ?_, fun r => ?_⟩
    · rw [List.foldl_cons, h2]
      refine BitVec.eq_of_toNat_eq ?_
      simp only [Processor.pop, BitVec.toNat_add, BitVec.toNat_ofNat, List.length_cons]
      omega
    · rw [List.foldl_cons, h3, List.length_cons, words_succ, List.zip_cons_cons]
      by_cases hr : r = q
      · subst hr
        have hnone : (rs.zip (words c.mem (c.rsp + 8#64) rs.length)).lookup r = none := by
          rw [List.lookup_eq_none_iff]
          intro p hp
          have := (List.of_mem_zip (a := p.1) (b := p.2) hp).1
          simpa using fun h : r = p.1 => hq (h ▸ this)
        show (List.lookup r (rs.zip (words c.mem (c.rsp + 8#64) rs.length))).getD _ = _
        rw [hnone, List.lookup_cons_self]
        simp [Processor.pop]
      · show (List.lookup r (rs.zip (words c.mem (c.rsp + 8#64) rs.length))).getD _ = _
        rw [List.lookup_cons, beq_eq_false_iff_ne.mpr hr]
        simp [Processor.pop, Function.update_of_ne hr]

/-! ### The frame -/

/-- The order of `pusha64` and `popa64`. -/
def order : List Reg :=
  [.rax, .rbx, .rcx, .rdx, .rbp, .rdi, .rsi, .r8, .r9, .r10, .r11, .r12, .r13, .r14, .r15]

theorem order_nodup : order.Nodup := by decide

theorem word_of_words {m : Mem} {sp w : BitVec 64} {n k : ℕ} (h : (words m sp n)[k]? = some w) :
    word m (sp + BitVec.ofNat 64 (8 * k)) = w := by
  simp only [words, List.getElem?_map, Option.map_eq_some_iff] at h
  obtain ⟨j, hj, hw⟩ := h
  have hlt := (List.getElem?_eq_some_iff.mp hj).1
  rw [List.getElem?_range (by simpa using hlt)] at hj
  cases hj
  exact hw

/-- The words the processor and the stub of a vector without error code push. -/
def pushedBy (n : ℕ) (c : Processor) : List (BitVec 64) :=
  [c.ss.setWidth 64, c.rsp, c.rflags, c.cs.setWidth 64, c.rip, 0#64, BitVec.ofNat 64 n]

theorem aligned_stack (stack : BitVec 64) : Aligned (stack &&& ~~~15#64) := by
  unfold Aligned
  rw [BitVec.toNat_and]
  have hm : (~~~15#64).toNat = (2 ^ 61 - 2) * 2 ^ 3 := by decide
  rw [hm, show (8 : ℕ) = 2 ^ 3 by norm_num, Nat.and_mod_two_pow, Nat.mul_mod_left, Nat.and_zero]

/-- **The frame at the call of `isr_handler`**: the registers on the seven words of the stub and the
processor. -/
theorem words_isrEntry {c c₁ : Processor} {stack : BitVec 64} {ws : List (BitVec 64)}
    (hst : stackOf c₁ = StackMem.pushAll ⟨c.mem, stack &&& ~~~15#64⟩ ws) (hregs : c₁.regs = c.regs)
    (hlen : ws.length = 7) :
    (isrEntry c₁).regs .rdi = (isrEntry c₁).rsp ∧
      words (isrEntry c₁).mem (isrEntry c₁).rsp 22 = (order.map c.regs).reverse ++ ws.reverse := by
  obtain ⟨hpush, -⟩ := pushes order (cld c₁)
  have hbase : stackOf (cld c₁) = stackOf c₁ := rfl
  have hcld : (cld c₁).regs = c.regs := hregs
  rw [hbase, hst, hcld] at hpush
  obtain ⟨ha, h1⟩ := words_pushAll (s := ⟨c.mem, stack &&& ~~~15#64⟩) (n := 0) ws (aligned_stack stack)
    (by simp [hlen])
  obtain ⟨-, h2⟩ := words_pushAll (n := 7) (order.map c.regs) ha (by simp [order])
  rw [← hpush] at h2
  refine ⟨by simp [isrEntry], ?_⟩
  show words (stackOf _).mem (stackOf _).sp 22 = _
  refine h2.trans ?_
  rw [show (7 : ℕ) = ws.length + 0 from hlen.symm, h1]
  simp [words]

/-! ### The way back -/

/-- The register whose word a register gets. -/
def mirror : Reg → Reg
  | .rax => .r15 | .rbx => .r14 | .rcx => .r13 | .rdx => .r12 | .rbp => .r11 | .rdi => .r10
  | .rsi => .r9 | .r8 => .r8 | .r9 => .rsi | .r10 => .rdi | .r11 => .rbp | .r12 => .rdx
  | .r13 => .rcx | .r14 => .rbx | .r15 => .rax

/-- **`_isr_handler` after the call**, on a frame as it was at the call. -/
theorem isrExit_frame {c₀ : Processor} {n : ℕ}
    (hw : words c.mem (c.regs .rax) 22 = (order.map c₀.regs).reverse ++ (pushedBy n c₀).reverse) :
    (∀ r, (isrExit c).regs r = c₀.regs (mirror r)) ∧ (isrExit c).rip = c₀.rip ∧
      (isrExit c).cs = c₀.cs ∧ (isrExit c).rflags = c₀.rflags ∧ (isrExit c).rsp = c₀.rsp ∧
      (isrExit c).ss = c₀.ss := by
  obtain ⟨hm, hsp, hregs⟩ := pops order_nodup { c with rsp := c.regs .rax }
  have h15 : words c.mem (c.regs .rax) 15 = (order.map c₀.regs).reverse := by
    have := words_add (m := c.mem) (c.regs .rax) 15 7
    rw [hw] at this
    exact (List.append_inj_left this (by simp [order, length_words])).symm
  -- the words of the frame, counted from the stack pointer of `iretq`
  have hword : ∀ k w, ((order.map c₀.regs).reverse ++ (pushedBy n c₀).reverse)[17 + k]? = some w →
      word (popa64 { c with rsp := c.regs .rax }).mem
        ((popa64 { c with rsp := c.regs .rax }).rsp + 16#64 + BitVec.ofNat 64 (8 * k)) = w := by
    intro k w h
    rw [← hw] at h
    rw [← word_of_words h]
    refine congrArg₂ word hm (BitVec.eq_of_toNat_eq ?_)
    have h' : (popa64 { c with rsp := c.regs .rax }).rsp = c.regs .rax + 120#64 := hsp
    rw [h']
    simp only [BitVec.toNat_add, BitVec.toNat_ofNat]
    omega
  refine ⟨fun r => ?_, ?_, ?_, ?_, ?_, ?_⟩
  · refine (hregs r).trans ?_
    show ((order.zip (words c.mem (c.regs .rax) 15)).lookup r).getD _ = _
    rw [h15]
    cases r <;> rfl
  · have := hword 0 c₀.rip rfl
    rwa [show BitVec.ofNat 64 (8 * 0) = 0#64 from rfl, BitVec.add_zero] at this
  · exact (congrArg (BitVec.setWidth 16) (hword 1 (c₀.cs.setWidth 64) rfl)).trans
      (BitVec.setWidth_setWidth_of_le _ (by norm_num) |>.trans (BitVec.setWidth_eq _))
  · exact hword 2 c₀.rflags rfl
  · exact hword 3 c₀.rsp rfl
  · exact (congrArg (BitVec.setWidth 16) (hword 4 (c₀.ss.setWidth 64) rfl)).trans
      (BitVec.setWidth_setWidth_of_le _ (by norm_num) |>.trans (BitVec.setWidth_eq _))

/-! ### Every interrupt -/

/-- The vectors on which `isr_handler` returns. -/
def Returning (n : ℕ) : Prop := (32 ≤ n ∧ n < 48) ∨ n = 128 ∨ n = 255

theorem stub_of_returning {n : ℕ} (h : Returning n) : stub n = isrNoErr n := by
  unfold stub
  rw [if_neg]
  rcases h with h | rfl | rfl
  · simp; omega
  · decide
  · decide

theorem isrHandler_returns {m : Mem} {sp : BitVec 64} {n : ℕ} (h : Returning n)
    (hn : isrNum m sp = BitVec.ofNat 64 n) : ∃ ports, isrHandler m sp = .returns sp ports := by
  unfold isrHandler
  rw [hn]
  rcases h with ⟨h1, h2⟩ | rfl | rfl
  · have hlt : n % 2 ^ 64 = n := Nat.mod_eq_of_lt (by omega)
    refine ⟨FusionCore.Dd.Pic.picSignalEoi (BitVec.ofNat 64 n), ?_⟩
    rw [if_neg, if_pos]
    · simp only [BitVec.le_def, BitVec.lt_def, BitVec.toNat_ofNat]
      omega
    · simp only [BitVec.lt_def, BitVec.toNat_ofNat]
      omega
  · exact ⟨[], by rw [if_neg (by decide), if_neg (by decide), if_pos (by decide)]⟩
  · exact ⟨[], by rw [if_neg (by decide), if_neg (by decide), if_neg (by decide), if_pos (by decide)]⟩

theorem isrHandlerAsm_returns {after : Processor → Processor} {rsp : BitVec 64} {ports : List (ℕ × ℕ)}
    (h : isrHandler (isrEntry c).mem ((isrEntry c).regs .rdi) = .returns rsp ports) :
    isrHandlerAsm after c = some (isrExit (after (isrEntry c))) := by
  unfold isrHandlerAsm
  simp only [h]

/-- **An interrupt mirrors the registers.** The interrupted code is resumed where it was, on its stack,
with its flags, and with every register holding the value of its mirror. -/
theorem interrupt_mirrors {after : Processor → Processor} (hk : KeepsFrame after) {n : ℕ}
    (h : Returning n) (stack : BitVec 64) (c : Processor) :
    ∃ c', interrupt after n stack none c = some c' ∧ (∀ r, c'.regs r = c.regs (mirror r)) ∧
      c'.rip = c.rip ∧ c'.cs = c.cs ∧ c'.rflags = c.rflags ∧ c'.rsp = c.rsp ∧ c'.ss = c.ss := by
  have hst : stackOf (isrNoErr n (deliver c stack none)) =
      StackMem.pushAll ⟨c.mem, stack &&& ~~~15#64⟩ (pushedBy n c) := rfl
  have hregs : (isrNoErr n (deliver c stack none)).regs = c.regs := rfl
  obtain ⟨hrdi, hw⟩ := words_isrEntry hst hregs rfl
  generalize he : isrEntry (isrNoErr n (deliver c stack none)) = e at hrdi hw
  have hnum : isrNum e.mem e.rsp = BitVec.ofNat 64 n := by
    refine word_of_words (n := 22) (k := 15) ?_
    rw [hw]
    rfl
  obtain ⟨ports, hret⟩ := isrHandler_returns h hnum
  rw [← hrdi] at hret
  obtain ⟨hrax, hkeep⟩ := hk e _ _ hret
  refine ⟨isrExit (after e), ?_, isrExit_frame (n := n) ?_⟩
  · subst he
    rw [interrupt, stub_of_returning h]
    exact isrHandlerAsm_returns hret
  · rw [hrax, hrdi, hkeep, hw]

/-- The interrupted code sees no difference. -/
structure Transparent (c c' : Processor) : Prop where
  regs : ∀ r, c'.regs r = c.regs r
  rip : c'.rip = c.rip
  cs : c'.cs = c.cs
  rflags : c'.rflags = c.rflags
  rsp : c'.rsp = c.rsp
  ss : c'.ss = c.ss

/-- **When an interrupt is transparent.** On every vector on which `isr_handler` returns the interrupted
code is resumed, and it sees no difference if and only if each of the first seven registers of `pusha64`
held the same value as its mirror. -/
theorem transparent_iff_mirrored {after : Processor → Processor} (hk : KeepsFrame after) {n : ℕ}
    (h : Returning n) (stack : BitVec 64) (c : Processor) :
    ∃ c', interrupt after n stack none c = some c' ∧ (Transparent c c' ↔
      c.regs .rax = c.regs .r15 ∧ c.regs .rbx = c.regs .r14 ∧ c.regs .rcx = c.regs .r13 ∧
      c.regs .rdx = c.regs .r12 ∧ c.regs .rbp = c.regs .r11 ∧ c.regs .rdi = c.regs .r10 ∧
      c.regs .rsi = c.regs .r9) := by
  obtain ⟨c', hc, hregs, h1, h2, h3, h4, h5⟩ := interrupt_mirrors hk h stack c
  refine ⟨c', hc, fun ht => ?_, fun he => ⟨fun r => ?_, h1, h2, h3, h4, h5⟩⟩
  · have heq : ∀ r, c.regs r = c.regs (mirror r) := fun r => (ht.regs r).symm.trans (hregs r)
    exact ⟨heq .rax, heq .rbx, heq .rcx, heq .rdx, heq .rbp, heq .rdi, heq .rsi⟩
  · obtain ⟨e1, e2, e3, e4, e5, e6, e7⟩ := he
    rw [hregs]
    cases r <;> simp only [mirror, e1, e2, e3, e4, e5, e6, e7]

/-! ### A handler that prints nothing -/

/-- `isr_handler` as a compiler might leave it without its output: the argument is moved to `rax`. -/
def moveArgument (c : Processor) : Processor :=
  { c with regs := Function.update c.regs .rax (c.regs .rdi) }

theorem isrHandler_returns_argument {m : Mem} {sp r : BitVec 64} {ports : List (ℕ × ℕ)}
    (h : isrHandler m sp = .returns r ports) : r = sp := by
  unfold isrHandler at h
  split_ifs at h <;> (cases h; rfl)

theorem moveArgument_keepsFrame : KeepsFrame moveArgument := by
  intro c r ports h
  refine ⟨?_, rfl⟩
  rw [isrHandler_returns_argument h]
  simp [moveArgument]

/-- Code at 0x1000 with the given registers. -/
def interrupted (regs : Reg → BitVec 64) : Processor where
  regs := regs
  rsp := 0x8000#64
  rip := 0x1000#64
  cs := 8#16
  ss := 16#16
  rflags := 0x202#64
  mem := fun _ => 0

/-- Registers that equal their mirrors. -/
def mirrored : Reg → BitVec 64
  | .rax | .r15 => 0x11 | .rbx | .r14 => 0x22 | .rcx | .r13 => 0x33 | .rdx | .r12 => 0x44
  | .rbp | .r11 => 0x55 | .rdi | .r10 => 0x66 | .rsi | .r9 => 0x77 | .r8 => 0x88

theorem transparent_iff_mirrored_timer : ∃ c',
    interrupt moveArgument 32 0x8000#64 none (interrupted mirrored) = some c' ∧
      Transparent (interrupted mirrored) c' := by
  obtain ⟨c', h1, h2⟩ := transparent_iff_mirrored moveArgument_keepsFrame
    (Or.inl ⟨le_rfl, by norm_num⟩ : Returning 32) 0x8000#64 (interrupted mirrored)
  exact ⟨c', h1, h2.mpr ⟨rfl, rfl, rfl, rfl, rfl, rfl, rfl⟩⟩

/-- Code that holds 1 in `rax` and 0 in `r15` finds 0 in `rax` after the timer interrupt. -/
theorem timer_interrupt_clears_rax : ∃ c', interrupt moveArgument 32 0x8000#64 none
    (interrupted fun r => if r = .rax then 1#64 else 0#64) = some c' ∧ c'.regs .rax = 0#64 ∧
      ¬ Transparent (interrupted fun r => if r = .rax then 1#64 else 0#64) c' := by
  obtain ⟨c', h1, h2, -⟩ := interrupt_mirrors moveArgument_keepsFrame
    (Or.inl ⟨le_rfl, by norm_num⟩ : Returning 32) 0x8000#64
    (interrupted fun r => if r = .rax then 1#64 else 0#64)
  have hrax : c'.regs .rax = 0#64 := h2 .rax
  refine ⟨c', h1, hrax, fun ht => ?_⟩
  have := ht.regs .rax
  rw [hrax] at this
  exact absurd this (by decide)

end FusionCore.Cpu.IsrSpec
