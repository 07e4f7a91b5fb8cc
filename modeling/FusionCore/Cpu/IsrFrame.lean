import FusionCore.Cpu.IsrSpec

/-! # The frame `isr_handler` reads

`Faithful` says that `cpu_state_t`, read at the pointer `isr_handler` is given, is the interrupted
processor: the vector, the error code, the registers and the frame of the processor. The fields are
the words of the frame in the order of the pushes, but `pusha64` pushes `rbp`, `rdi` and `rsi` where
the structure has `rsi`, `rdi` and `rbp` (`cpuState_isrEntry`). The name is looked up at the vector,
in a table of the 32 exceptions. So every vector has a faithful frame and a name from inside the
table exactly if `rbp` and `rsi` are equal and the vector is an exception or one without a name
(`frame_iff`). -/

namespace FusionCore.Cpu.IsrFrame

open FusionCore.Lib.ByteMem FusionCore.Lib.Stack FusionCore.Cpu.Isr FusionCore.Cpu.IsrSpec

/-- The vectors for which the processor pushes an error code. -/
def errVectors : List ℕ := [8, 10, 11, 12, 13, 14, 17, 21]

/-- The error code the processor pushes, if `e` is the one of the event. -/
def errCodeOf (v : ℕ) (e : BitVec 64) : Option (BitVec 64) := if v ∈ errVectors then some e else none

/-- The processor at the call of `isr_handler`, for an interrupt at the processor `c`. -/
def atCall (v : ℕ) (stack e : BitVec 64) (c : Processor) : Processor :=
  isrEntry (stub v (deliver c stack (errCodeOf v e)))

/-- The field with a register's name. -/
def fieldOf (s : CpuState) : Reg → BitVec 64
  | .rax => s.rax | .rbx => s.rbx | .rcx => s.rcx | .rdx => s.rdx | .rbp => s.rbp | .rdi => s.rdi
  | .rsi => s.rsi | .r8 => s.r8 | .r9 => s.r9 | .r10 => s.r10 | .r11 => s.r11 | .r12 => s.r12
  | .r13 => s.r13 | .r14 => s.r14 | .r15 => s.r15

/-- **The frame tells the interrupt**: vector `v`, error code `e`, at the processor `c`. -/
structure Faithful (v : ℕ) (e : BitVec 64) (c : Processor) (s : CpuState) : Prop where
  isrNum : s.isrNum = BitVec.ofNat 64 v
  errCode : s.errCode = (errCodeOf v e).getD 0#64
  regs : ∀ r, fieldOf s r = c.regs r
  rip : s.rip = c.rip
  cs : s.cs = c.cs.setWidth 64
  rflags : s.rflags = c.rflags
  rsp : s.rsp = c.rsp
  ss : s.ss = c.ss.setWidth 64

/-- A name that is looked up is one of the table. -/
def NameInside (m : Mem) (rsp : BitVec 64) : Prop :=
  ∀ k, isrNameIndex m rsp = some k → k.toNat < exceptions.length

/-! ### The words -/

/-- The words the processor and the stub push. -/
def pushed (v : ℕ) (e : BitVec 64) (c : Processor) : List (BitVec 64) :=
  [c.ss.setWidth 64, c.rsp, c.rflags, c.cs.setWidth 64, c.rip, (errCodeOf v e).getD 0#64,
    BitVec.ofNat 64 v]

/-- The register whose word the field of a register is. -/
def fieldSource : Reg → Reg
  | .rbp => .rsi
  | .rsi => .rbp
  | r => r

section Frame
variable (v : ℕ) (stack e : BitVec 64) (c : Processor)

theorem stub_deliver : stackOf (stub v (deliver c stack (errCodeOf v e))) =
      StackMem.pushAll ⟨c.mem, stack &&& ~~~15#64⟩ (pushed v e c) ∧
    (stub v (deliver c stack (errCodeOf v e))).regs = c.regs := by
  by_cases h : v ∈ errVectors
  · have hstub : stub v = isrErr v := if_pos h
    have herr : errCodeOf v e = some e := if_pos h
    rw [hstub, pushed, herr]
    exact ⟨rfl, rfl⟩
  · have hstub : stub v = isrNoErr v := if_neg h
    have herr : errCodeOf v e = none := if_neg h
    rw [hstub, pushed, herr]
    exact ⟨rfl, rfl⟩

/-- **The fields** at the call: the registers `rbp` and `rsi` are in each other's. -/
theorem cpuState_isrEntry :
    let s := cpuState (atCall v stack e c).mem ((atCall v stack e c).regs .rdi)
    (∀ r, fieldOf s r = c.regs (fieldSource r)) ∧ s.isrNum = BitVec.ofNat 64 v ∧
      s.errCode = (errCodeOf v e).getD 0#64 ∧ s.rip = c.rip ∧ s.cs = c.cs.setWidth 64 ∧
      s.rflags = c.rflags ∧ s.rsp = c.rsp ∧ s.ss = c.ss.setWidth 64 := by
  obtain ⟨hst, hregs⟩ := stub_deliver v stack e c
  obtain ⟨hrdi, hw⟩ := words_isrEntry hst hregs rfl
  have hfield : ∀ k w, ((order.map c.regs).reverse ++ (pushed v e c).reverse)[k]? = some w →
      word (atCall v stack e c).mem ((atCall v stack e c).regs .rdi + BitVec.ofNat 64 (8 * k)) = w := by
    intro k w h
    rw [← hw] at h
    rw [atCall, hrdi]
    exact word_of_words h
  refine ⟨fun r => ?_, hfield 15 _ rfl, hfield 16 _ rfl, hfield 17 _ rfl, hfield 18 _ rfl,
    hfield 19 _ rfl, hfield 20 _ rfl, hfield 21 _ rfl⟩
  cases r with
  | rax => exact hfield 14 _ rfl
  | rbx => exact hfield 13 _ rfl
  | rcx => exact hfield 12 _ rfl
  | rdx => exact hfield 11 _ rfl
  | rbp => exact hfield 8 _ rfl
  | rdi => exact hfield 9 _ rfl
  | rsi => exact hfield 10 _ rfl
  | r8 => exact hfield 7 _ rfl
  | r9 => exact hfield 6 _ rfl
  | r10 => exact hfield 5 _ rfl
  | r11 => exact hfield 4 _ rfl
  | r12 => exact hfield 3 _ rfl
  | r13 => exact hfield 2 _ rfl
  | r14 => exact hfield 1 _ rfl
  | r15 => exact hfield 0 _ rfl

theorem faithful_iff :
    Faithful v e c (cpuState (atCall v stack e c).mem ((atCall v stack e c).regs .rdi)) ↔
      c.regs .rbp = c.regs .rsi := by
  obtain ⟨hregs, h1, h2, h3, h4, h5, h6, h7⟩ := cpuState_isrEntry v stack e c
  constructor
  · intro h
    exact (h.regs .rbp).symm.trans (hregs .rbp) |>.trans rfl
  · intro heq
    refine ⟨h1, h2, fun r => (hregs r).trans ?_, h3, h4, h5, h6, h7⟩
    cases r <;> first | rfl | exact heq | exact heq.symm

theorem nameInside_iff (hv : v < 256) :
    NameInside (atCall v stack e c).mem ((atCall v stack e c).regs .rdi) ↔
    v < 32 ∨ v = 128 ∨ v = 255 := by
  have hnum : isrNum (atCall v stack e c).mem ((atCall v stack e c).regs .rdi) = BitVec.ofNat 64 v :=
    (cpuState_isrEntry v stack e c).2.1
  have htable : exceptions.length = 32 := rfl
  have hto : (BitVec.ofNat 64 v).toNat = v := by
    rw [BitVec.toNat_ofNat]
    exact Nat.mod_eq_of_lt (by omega)
  have heq : ∀ n < 256, (BitVec.ofNat 64 v = BitVec.ofNat 64 n ↔ v = n) := by
    intro n hn
    rw [← BitVec.toNat_inj, hto, BitVec.toNat_ofNat, Nat.mod_eq_of_lt (by omega)]
  have hlt : ∀ n < 256, (BitVec.ofNat 64 v < BitVec.ofNat 64 n ↔ v < n) := by
    intro n hn
    rw [BitVec.lt_def, hto, BitVec.toNat_ofNat, Nat.mod_eq_of_lt (by omega)]
  have hle : (32#64 ≤ BitVec.ofNat 64 v ↔ 32 ≤ v) := by
    rw [BitVec.le_def, hto]
    rfl
  have hindex : isrNameIndex (atCall v stack e c).mem ((atCall v stack e c).regs .rdi) =
      if v = 128 ∨ v = 255 then none else some (BitVec.ofNat 64 v) := by
    unfold isrNameIndex syscallInt spuriousInt
    rw [hnum]
    simp only [hlt 32 (by norm_num), hlt 48 (by norm_num), hle, heq 128 (by norm_num),
      heq 255 (by norm_num)]
    split_ifs <;> first | rfl | omega
  unfold NameInside
  rw [hindex, htable]
  by_cases hnone : v = 128 ∨ v = 255
  · rw [if_pos hnone]
    exact ⟨fun _ => Or.inr hnone, fun _ k hk => absurd hk (by simp)⟩
  · rw [if_neg hnone]
    simp only [Option.some.injEq, forall_eq', hto]
    omega

end Frame

/-- **The interrupt frame**: faithful and with a name from the table, exactly if. -/
theorem frame_iff {v : ℕ} (hv : v < 256) (stack e : BitVec 64) (c : Processor) :
    (Faithful v e c (cpuState (atCall v stack e c).mem ((atCall v stack e c).regs .rdi)) ∧
      NameInside (atCall v stack e c).mem ((atCall v stack e c).regs .rdi)) ↔
    c.regs .rbp = c.regs .rsi ∧ (v < 32 ∨ v = 128 ∨ v = 255) := by
  rw [faithful_iff, nameInside_iff v stack e c hv]

/-- Registers of which only `rbp` and `rsi` are equal. -/
def paired : Reg → BitVec 64
  | .rax => 1 | .rbx => 2 | .rcx => 3 | .rdx => 4 | .rbp | .rsi => 5 | .rdi => 6 | .r8 => 8 | .r9 => 9
  | .r10 => 10 | .r11 => 11 | .r12 => 12 | .r13 => 13 | .r14 => 14 | .r15 => 15

theorem frame_iff_page_fault :
    Faithful 14 2#64 (interrupted paired)
      (cpuState (atCall 14 0x8000#64 2#64 (interrupted paired)).mem
        ((atCall 14 0x8000#64 2#64 (interrupted paired)).regs .rdi)) :=
  ((frame_iff (by norm_num : 14 < 256) 0x8000#64 2#64 (interrupted paired)).mpr
    ⟨rfl, Or.inl (by norm_num)⟩).1

/-- On a page fault with 1 in `rbp` the field `rsi` is 1; on the keyboard's interrupt the index is 33. -/
theorem page_fault_swaps :
    (∃ c, c.regs .rsi = 0#64 ∧
      (cpuState (atCall 14 0x8000#64 2#64 c).mem ((atCall 14 0x8000#64 2#64 c).regs .rdi)).rsi = 1#64 ∧
      ¬ Faithful 14 2#64 c
        (cpuState (atCall 14 0x8000#64 2#64 c).mem ((atCall 14 0x8000#64 2#64 c).regs .rdi))) ∧
    ¬ NameInside (atCall 33 0x8000#64 0#64 (interrupted fun _ => 0#64)).mem
        ((atCall 33 0x8000#64 0#64 (interrupted fun _ => 0#64)).regs .rdi) := by
  constructor
  · refine ⟨interrupted fun r => if r = .rbp then 1#64 else 0#64, rfl, ?_, fun h => ?_⟩
    · exact (cpuState_isrEntry 14 0x8000#64 2#64 _).1 .rsi
    · have hrsi := (cpuState_isrEntry 14 0x8000#64 2#64
        (interrupted fun r => if r = .rbp then 1#64 else 0#64)).1 .rsi
      have hbad := (h.regs .rsi).symm.trans hrsi
      exact absurd hbad (by decide)
  · rw [nameInside_iff 33 _ _ _ (by norm_num)]
    norm_num

end FusionCore.Cpu.IsrFrame
