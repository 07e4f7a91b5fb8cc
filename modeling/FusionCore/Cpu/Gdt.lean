import FusionCore.Lib.Fields

/-! # The global descriptor table (`cpu/gdt.c`, `cpu/gdt.h`, `cpu/_gdt.s`)

`gdt`, `tss`, `gdt_ptr` and the kernel stack are objects in memory, named by their addresses. The
processor is its descriptor-table register, the task register with the segment it caches, and the
selectors it has loaded; a load that the processor refuses is a fault, `none`. -/

namespace FusionCore.Cpu.Gdt

open FusionCore.Lib.ByteMem FusionCore.Lib.Fields

/-- A table register: `gdt_ptr_t` and `idt_ptr_t` as the processor holds them. -/
structure TableReg where
  limit : ℕ
  base : ℕ
  deriving DecidableEq, Repr

/-- The task register: base and limit of the segment. -/
structure TaskReg where
  base : ℕ
  limit : ℕ
  deriving DecidableEq, Repr

/-- Memory and the registers the two tables are about. -/
structure Tables where
  mem : Mem
  gdtr : TableReg
  idtr : TableReg
  tr : TaskReg
  cs : ℕ
  ss : ℕ
  interruptFlag : Bool

/-- The addresses of `gdt`, `tss`, `gdt_ptr` and `stack`. -/
structure GdtObjects where
  gdt : ℕ
  tss : ℕ
  gdtPtr : ℕ
  stack : ℕ

/-- `gdt_desc_t`. -/
def gdtDesc (limitLo baseLo baseMid access flags baseHi : ℕ) : List Field :=
  [⟨2, 0, limitLo⟩, ⟨2, 2, baseLo⟩, ⟨1, 4, baseMid⟩, ⟨1, 5, access⟩, ⟨1, 6, flags⟩, ⟨1, 7, baseHi⟩]

/-- `tss_desc_t`. -/
def tssDesc (length baseLo baseMid flags1 flags2 baseHi baseUpper reserved : ℕ) : List Field :=
  [⟨2, 0, length⟩, ⟨2, 2, baseLo⟩, ⟨1, 4, baseMid⟩, ⟨1, 5, flags1⟩, ⟨1, 6, flags2⟩, ⟨1, 7, baseHi⟩,
    ⟨4, 8, baseUpper⟩, ⟨4, 12, reserved⟩]

/-- The assignments of `gdt_init` to `gdt`: the null descriptor, kernel code and data, user data and
code, and the TSS. -/
def gdtFields : List Field :=
  gdtDesc 0 0 0 0 0 0 ++
  shift 8 (gdtDesc 0 0 0 0b10011010 0b00100000 0) ++
  shift 16 (gdtDesc 0 0 0 0b10010010 0 0) ++
  shift 24 (gdtDesc 0 0 0 0b11110010 0 0) ++
  shift 32 (gdtDesc 0 0 0 0b11111010 0b00100000 0) ++
  shift 40 (tssDesc 104 0 0 0b10001001 0 0 0 0)

/-- What `gdt_init` writes: the table, the zeroed `tss` with `rsp[0]` and `iopb_offset`, and `gdt_ptr`. -/
def gdtMem (g : GdtObjects) (m : Mem) : Mem :=
  let m := writeFields m g.gdt gdtFields
  let m := fill m g.tss 104 0
  let m := store m 8 (g.tss + 4) (g.stack + 16384)
  let m := store m 2 (g.tss + 102) 104
  let m := store m 2 g.gdtPtr (56 - 1)
  store m 8 (g.gdtPtr + 2) g.gdt

/-! ### The processor -/

/-- `lgdt` and `lidt`. -/
def loadTableReg (m : Mem) (p : ℕ) : TableReg := ⟨load m 2 p, load m 8 (p + 2)⟩

/-- The access byte of the descriptor at `d`. -/
def accessAt (m : Mem) (d : ℕ) : ℕ := load m 1 (d + 5)

/-- The present bit. -/
def present (access : ℕ) : Bool := access.testBit 7

/-- The descriptor privilege level. -/
def dpl (access : ℕ) : ℕ := access / 32 % 4

/-- A code segment: the descriptor and the executable bit. -/
def isCode (access : ℕ) : Bool := access.testBit 4 && access.testBit 3

/-- A data segment that can be written. -/
def isWritableData (access : ℕ) : Bool := access.testBit 4 && !access.testBit 3 && access.testBit 1

/-- The 64-bit bit of a code segment, without the 32-bit one. -/
def isLong (m : Mem) (d : ℕ) : Bool := (load m 1 (d + 6)).testBit 5 && !(load m 1 (d + 6)).testBit 6

/-- The descriptor of a selector with index `i`, of `n` bytes, if it is within the table. -/
def descriptor (r : TableReg) (selector n : ℕ) : Option ℕ :=
  if selector / 8 * 8 + n ≤ r.limit + 1 ∧ selector / 8 ≠ 0 then some (r.base + selector / 8 * 8) else none

/-- `ltr`: the segment must be a 64-bit TSS that is present and not busy; it becomes busy. -/
def ltr (c : Tables) (selector : ℕ) : Option Tables := do
  let d ← descriptor c.gdtr selector 16
  if accessAt c.mem d % 32 = 9 ∧ present (accessAt c.mem d) then
    some { c with
      tr := ⟨load c.mem 2 (d + 2) + 2 ^ 16 * load c.mem 1 (d + 4) + 2 ^ 24 * load c.mem 1 (d + 7) +
          2 ^ 32 * load c.mem 4 (d + 8), load c.mem 2 d + 2 ^ 16 * (load c.mem 1 (d + 6) % 16)⟩
      mem := store c.mem 1 (d + 5) (accessAt c.mem d + 2) }
  else none

/-- A move to a data segment register, in ring 0. -/
def loadData (c : Tables) (selector : ℕ) : Option Unit := do
  let d ← descriptor c.gdtr selector 8
  if isWritableData (accessAt c.mem d) ∧ present (accessAt c.mem d) ∧
      dpl (accessAt c.mem d) = 0 then
    some ()
  else none

/-- A far return to a code segment, in ring 0. -/
def loadCode (c : Tables) (selector : ℕ) : Option Unit := do
  let d ← descriptor c.gdtr selector 8
  if isCode (accessAt c.mem d) ∧ present (accessAt c.mem d) ∧ isLong c.mem d ∧
      dpl (accessAt c.mem d) = 0 then
    some ()
  else none

/-- `_load_gdt_tss`; `ds`, `es`, `fs` and `gs` are loaded with the selector of `ss`. -/
def loadGdtTss (gdtPtr : ℕ) (c : Tables) : Option Tables := do
  let c ← ltr { c with gdtr := loadTableReg c.mem gdtPtr } 0x28
  loadData c 0x10
  loadCode c 0x08
  return { c with ss := 0x10, cs := 0x08 }

/-- `gdt_init`. -/
def gdtInit (g : GdtObjects) (c : Tables) : Option Tables :=
  loadGdtTss g.gdtPtr { c with mem := gdtMem g c.mem }

end FusionCore.Cpu.Gdt
