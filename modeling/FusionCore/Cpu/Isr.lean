import FusionCore.Lib.Stack
import FusionCore.Dd.Pic

/-! # Interrupt entry and exit (`cpu/_isr.s`, `asm/helper.asm`, `cpu/isr.c`)

The processor is its fifteen general-purpose registers, `rsp`, the values `iretq` restores, and memory.
`deliver` is what the processor does before the first instruction of a stub; then come the stub, the body
of `_isr_handler` and `isr_handler`. Where the stub and the body are in memory does not matter to them, so
`rip` stands for the interrupted instruction throughout.

`isr_handler` is compiled C code: what the calling convention says of its registers and of its caller's
stack is `KeepsFrame`. Of the texts it prints the name of the interrupt is kept: `isrNameIndex` is
the index at which it looks this up in `exceptions`. -/

namespace FusionCore.Cpu.Isr

open FusionCore.Lib.ByteMem FusionCore.Lib.Stack
open FusionCore.Dd.Pic (picSignalEoi)

/-- The general-purpose registers other than `rsp`. -/
inductive Reg
  | rax | rbx | rcx | rdx | rbp | rdi | rsi | r8 | r9 | r10 | r11 | r12 | r13 | r14 | r15
  deriving DecidableEq, Repr

/-- The processor and memory. -/
structure Processor where
  regs : Reg → BitVec 64
  rsp : BitVec 64
  rip : BitVec 64
  cs : BitVec 16
  ss : BitVec 16
  rflags : BitVec 64
  mem : Mem

/-- `push`. -/
def Processor.push (c : Processor) (w : BitVec 64) : Processor :=
  { c with
    mem := (StackMem.push ⟨c.mem, c.rsp⟩ w).mem
    rsp := (StackMem.push ⟨c.mem, c.rsp⟩ w).sp }

/-- `pop` into a register. -/
def Processor.pop (c : Processor) (r : Reg) : Processor :=
  { c with
    regs := Function.update c.regs r (word c.mem c.rsp)
    rsp := c.rsp + 8#64 }

/-- `pusha64`. -/
def pusha64 (c : Processor) : Processor :=
  [Reg.rax, .rbx, .rcx, .rdx, .rbp, .rdi, .rsi, .r8, .r9, .r10, .r11, .r12, .r13, .r14, .r15].foldl
    (fun c r => c.push (c.regs r)) c

/-- `popa64`. -/
def popa64 (c : Processor) : Processor :=
  [Reg.rax, .rbx, .rcx, .rdx, .rbp, .rdi, .rsi, .r8, .r9, .r10, .r11, .r12, .r13, .r14, .r15].foldl
    Processor.pop c

/-- The frame the processor pushes on the stack it has chosen, aligned to 16 bytes, with the error code
if the vector has one. -/
def deliver (c : Processor) (stack : BitVec 64) (errCode : Option (BitVec 64)) : Processor :=
  let c₀ := { c with rsp := stack &&& ~~~15#64 }
  let c₁ := ((((c₀.push (c.ss.setWidth 64)).push c.rsp).push c.rflags).push (c.cs.setWidth 64)).push c.rip
  match errCode with
  | some e => c₁.push e
  | none => c₁

/-- `ISR_ERR n`. -/
def isrErr (n : ℕ) (c : Processor) : Processor := c.push (BitVec.ofNat 64 n)

/-- `ISR_NO_ERR n`. -/
def isrNoErr (n : ℕ) (c : Processor) : Processor := (c.push 0#64).push (BitVec.ofNat 64 n)

/-- The stub of a vector. -/
def stub (n : ℕ) : Processor → Processor :=
  if n ∈ [8, 10, 11, 12, 13, 14, 17, 21] then isrErr n else isrNoErr n

/-- `cld`: the direction flag is bit 10. -/
def cld (c : Processor) : Processor := { c with rflags := c.rflags &&& ~~~(1#64 <<< 10) }

/-- `iretq`. -/
def iretq (c : Processor) : Processor :=
  { c with
    rip := word c.mem c.rsp
    cs := (word c.mem (c.rsp + 8#64)).setWidth 16
    rflags := word c.mem (c.rsp + 16#64)
    rsp := word c.mem (c.rsp + 24#64)
    ss := (word c.mem (c.rsp + 32#64)).setWidth 16 }

/-! ### `isr_handler` -/

/-- `SYSCALL_INT` and `SPURIOUS_INT`. -/
def syscallInt : BitVec 64 := 128#64

@[inherit_doc syscallInt]
def spuriousInt : BitVec 64 := 255#64

/-- `cpu_state_t.isr_num`, the sixteenth of its words. -/
def isrNum (m : Mem) (cpu : BitVec 64) : BitVec 64 := word m (cpu + 120#64)

/-- `cpu_state_t`, in the order of its fields. -/
structure CpuState where
  r15 : BitVec 64
  r14 : BitVec 64
  r13 : BitVec 64
  r12 : BitVec 64
  r11 : BitVec 64
  r10 : BitVec 64
  r9 : BitVec 64
  r8 : BitVec 64
  rbp : BitVec 64
  rdi : BitVec 64
  rsi : BitVec 64
  rdx : BitVec 64
  rcx : BitVec 64
  rbx : BitVec 64
  rax : BitVec 64
  isrNum : BitVec 64
  errCode : BitVec 64
  rip : BitVec 64
  cs : BitVec 64
  rflags : BitVec 64
  rsp : BitVec 64
  ss : BitVec 64

/-- `(cpu_state_t *)rsp`: its fields are the consecutive words from there. -/
def cpuState (m : Mem) (cpu : BitVec 64) : CpuState :=
  let field (k : ℕ) := word m (cpu + BitVec.ofNat 64 (8 * k))
  { r15 := field 0, r14 := field 1, r13 := field 2, r12 := field 3, r11 := field 4, r10 := field 5,
    r9 := field 6, r8 := field 7, rbp := field 8, rdi := field 9, rsi := field 10, rdx := field 11,
    rcx := field 12, rbx := field 13, rax := field 14, isrNum := field 15, errCode := field 16,
    rip := field 17, cs := field 18, rflags := field 19, rsp := field 20, ss := field 21 }

/-- `exceptions`. -/
def exceptions : List String :=
  ["#DE: Divide Error",
   "#DB: Debug Exception",
   " — : NMI Interrupt",
   "#BP: Breakpoint",
   "#OF: Overflow",
   "#BR: BOUND Range Exceeded",
   "#UD: Invalid Opcode (Undefined Opcode)",
   "#NM: Device Not Available (No Math Coprocessor)",
   "#DF: Double Fault",
   "— : Coprocessor Segment Overrun (reserved)",
   "#TS: Invalid TSS",
   "#NP: Segment Not Present",
   "#SS: Stack-Segment Fault",
   "#GP: General Protection",
   "#PF: Page Fault",
   "— : (Intel reserved. Do not use.)",
   "#MF: x87 FPU Floating-Point Error (Math Fault)",
   "#AC: Alignment Check",
   "#MC: Machine Check",
   "#XM: SIMD Floating-Point Exception",
   "#VE: Virtualization Exception",
   "#CP: Control Protection Exception",
   " — : Intel reserved. Do not use.",
   " — : Intel reserved. Do not use.",
   " — : Intel reserved. Do not use.",
   " — : Intel reserved. Do not use.",
   " — : Intel reserved. Do not use.",
   " — : Intel reserved. Do not use.",
   " — : Intel reserved. Do not use.",
   " — : Intel reserved. Do not use.",
   " — : Intel reserved. Do not use.",
   " — : Intel reserved. Do not use."]

/-- The index of `exceptions[cpu->isr_num]`, on the branches of `isr_handler` that print a name. -/
def isrNameIndex (m : Mem) (rsp : BitVec 64) : Option (BitVec 64) :=
  if isrNum m rsp < 32#64 then some (isrNum m rsp)
  else if 32#64 ≤ isrNum m rsp ∧ isrNum m rsp < 48#64 then some (isrNum m rsp)
  else if isrNum m rsp = syscallInt then none
  else if isrNum m rsp = spuriousInt then none
  else some (isrNum m rsp)

/-- What `isr_handler` comes to: the value it returns and the port writes it makes, or the loop around
`hlt`. -/
inductive Outcome
  | halts
  | returns (rsp : BitVec 64) (ports : List (ℕ × ℕ))
  deriving DecidableEq

/-- `isr_handler`. -/
def isrHandler (m : Mem) (rsp : BitVec 64) : Outcome :=
  if isrNum m rsp < 32#64 then .halts
  else if 32#64 ≤ isrNum m rsp ∧ isrNum m rsp < 48#64 then .returns rsp (picSignalEoi (isrNum m rsp))
  else if isrNum m rsp = syscallInt then .returns rsp []
  else if isrNum m rsp = spuriousInt then .returns rsp []
  else .halts

/-- The calling convention: when `isr_handler` returns, its value is in `rax`, and the 22 words of the
caller's frame, from `rsp` up, are as they were. -/
def KeepsFrame (after : Processor → Processor) : Prop :=
  ∀ c rsp ports, isrHandler c.mem (c.regs .rdi) = .returns rsp ports →
    (after c).regs .rax = rsp ∧ words (after c).mem c.rsp 22 = words c.mem c.rsp 22

/-- `_isr_handler` up to the call. -/
def isrEntry (c : Processor) : Processor :=
  let c := pusha64 (cld c)
  { c with regs := Function.update c.regs .rdi c.rsp }

/-- `_isr_handler` after the call. -/
def isrExit (c : Processor) : Processor :=
  let c := popa64 { c with rsp := c.regs .rax }
  iretq { c with rsp := c.rsp + 16#64 }

/-- `_isr_handler`; `after` is what the compiled `isr_handler` makes of the processor. -/
def isrHandlerAsm (after : Processor → Processor) (c : Processor) : Option Processor :=
  let c := isrEntry c
  match isrHandler c.mem (c.regs .rdi) with
  | .halts => none
  | .returns _ _ => some (isrExit (after c))

/-- **An interrupt**, from the interrupted instruction to the one resumed. -/
def interrupt (after : Processor → Processor) (n : ℕ) (stack : BitVec 64)
    (errCode : Option (BitVec 64)) (c : Processor) : Option Processor :=
  isrHandlerAsm after (stub n (deliver c stack errCode))

end FusionCore.Cpu.Isr
