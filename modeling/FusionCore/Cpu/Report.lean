import FusionCore.Cpu.Isr
import FusionCore.Libk.Log

/-! # The report of an interrupt (`cpu/cpu.c`, `cpu/isr.c`)

What `isr_handler` and `cpu_reg_dump` print, as the list of the calls they make of `debug` and
`debug_set_col`. A call of `debug_set_col` with one of the colours of `debug.h` sends it.
`exceptions[cpu->isr_num]` is a string only inside the table. -/

namespace FusionCore.Cpu.Report

open FusionCore.Libk.Kprintf FusionCore.Libk.Log FusionCore.Cpu.Isr

/-- A call of `debug`, or of `debug_set_col`. -/
inductive Op
  | debug (fmt : List UInt8) (va : List Arg)
  | setCol (colCode : List UInt8)

/-- The calls, in this order. -/
def runOps (dbgBuf : ℕ) : List Op → Console → Except Err Console
  | [], con => .ok con
  | .debug fmt va :: ops, con => do
    let con ← Libk.Log.debug dbgBuf fmt va con
    runOps dbgBuf ops con
  | .setCol colCode :: ops, con => runOps dbgBuf ops (comSendString colCode con)

/-- `cpu_reg_dump`. -/
def cpuRegDump (cpu : CpuState) : List Op :=
  [.debug (str "Register dump:\n\n") [],
   .debug (str "rax: 0x%.16llx, rbx:    0x%.16llx, rcx: 0x%.16llx, rdx: 0x%.16llx\n")
     [⟨cpu.rax, none⟩, ⟨cpu.rbx, none⟩, ⟨cpu.rcx, none⟩, ⟨cpu.rdx, none⟩],
   .debug (str "rsi: 0x%.16llx, rdi:    0x%.16llx, rbp: 0x%.16llx, r8:  0x%.16llx\n")
     [⟨cpu.rsi, none⟩, ⟨cpu.rdi, none⟩, ⟨cpu.rbp, none⟩, ⟨cpu.r8, none⟩],
   .debug (str "r9:  0x%.16llx, r10:    0x%.16llx, r11: 0x%.16llx, r12: 0x%.16llx\n")
     [⟨cpu.r9, none⟩, ⟨cpu.r10, none⟩, ⟨cpu.r11, none⟩, ⟨cpu.r12, none⟩],
   .debug (str "r13: 0x%.16llx, r14:    0x%.16llx, r15: 0x%.16llx, ss : 0x%.16llx\n")
     [⟨cpu.r13, none⟩, ⟨cpu.r14, none⟩, ⟨cpu.r15, none⟩, ⟨cpu.ss, none⟩],
   .debug (str "rsp: 0x%.16llx, rflags: 0x%.16llx, cs:  0x%.16llx, rip: 0x%.16llx\n")
     [⟨cpu.rsp, none⟩, ⟨cpu.rflags, none⟩, ⟨cpu.cs, none⟩, ⟨cpu.rip, none⟩]]

/-- `TERM_RED` and `TERM_CYAN`. -/
def termRed : List UInt8 := LogStatus.panic.color

@[inherit_doc termRed]
def termCyan : List UInt8 := LogStatus.info.color

/-- `cpu->isr_num` and `exceptions[cpu->isr_num]`. -/
def nameArgs (cpu : CpuState) : List Arg :=
  [⟨cpu.isrNum, none⟩, ⟨0#64, (exceptions[cpu.isrNum.toNat]?).map fun s => s.toUTF8.toList⟩]

/-- The calls before the dump, the dump, and the calls behind it. -/
def around (before : List Op) (cpu : CpuState) (behind : List Op) : List Op :=
  before ++ (cpuRegDump cpu ++ behind)

/-- What `isr_handler` prints. -/
def isrReport (cpu : CpuState) : List Op :=
  if cpu.isrNum < 32#64 then
    around
      [.setCol termRed,
       .debug (str "\nEXCEPTION=EXCEPTION=EXCEPTION\n") [],
       .debug (str "    ISR%d: %s\n") (nameArgs cpu),
       .debug (str "    Error Code: 0x%.16llx\n\n\n") [⟨cpu.errCode, none⟩],
       .setCol termCyan] cpu
      [.setCol termColorReset, .debug (str "\nHalting...") []]
  else if 32#64 ≤ cpu.isrNum ∧ cpu.isrNum < 48#64 then
    around
      [.setCol termRed,
       .debug (str "\nUNHANDLED HARDWARE INTERRUPT\n\n") [],
       .debug (str "    ISR%d: %s\n") (nameArgs cpu),
       .setCol termCyan] cpu
      [.setCol termColorReset]
  else if cpu.isrNum = syscallInt then
    around [.setCol termRed, .debug (str "\nUNKNOWN SYSCALL OCCURED\n\n") [], .setCol termCyan] cpu
      [.setCol termColorReset]
  else if cpu.isrNum = spuriousInt then
    around [.debug (str "\nSPURIOUS INTERRUPT OCCURED\n\n") [], .setCol termCyan] cpu
      [.setCol termColorReset]
  else
    around
      [.setCol termRed,
       .debug (str "\nUNKNOWN INTERRUPT OCCURRED\n\n") [],
       .debug (str "    ISR%d: %s\n") (nameArgs cpu),
       .setCol termCyan] cpu
      [.setCol termColorReset, .debug (str "\nHalting...") []]

end FusionCore.Cpu.Report
