import FusionCore.Cpu.Gdt
import FusionCore.Dd.Pic

/-! # The interrupt descriptor table (`cpu/idt.c`, `cpu/idt.h`, `cpu/_idt.s`)

`idt`, `idt_ptr` and the array `_isr_vector` of handler addresses are objects in memory. -/

namespace FusionCore.Cpu.Idt

open FusionCore.Lib.ByteMem FusionCore.Lib.Fields FusionCore.Cpu.Gdt
open FusionCore.Dd.Pic (Pics picRemap)

/-- The addresses of `idt`, `idt_ptr` and `_isr_vector`. -/
structure IdtObjects where
  idt : ℕ
  idtPtr : ℕ
  isrVector : ℕ

/-- `INT_GATE`. -/
def intGate : ℕ := 0x8E

/-- `_isr_vector[index]`. -/
def handler (o : IdtObjects) (m : Mem) (index : ℕ) : ℕ := load m 8 (o.isrVector + 8 * index)

/-- The assignments of `idt_create_descriptor` to an `idt_desc_t`. -/
def idtDesc (offset typeAttribs : ℕ) : List Field :=
  [⟨2, 0, offset &&& 0xFFFF⟩, ⟨2, 2, 0x08⟩, ⟨1, 4, 0⟩, ⟨1, 5, typeAttribs⟩,
    ⟨2, 6, offset >>> 16 &&& 0xFFFF⟩, ⟨4, 8, offset >>> 32 &&& 0xFFFFFFFF⟩, ⟨4, 12, 0⟩]

/-- `idt_create_descriptor`. -/
def idtCreateDescriptor (o : IdtObjects) (m : Mem) (index : UInt8) (typeAttribs : ℕ) : Mem :=
  writeFields m (o.idt + 16 * index.toNat) (idtDesc (handler o m index.toNat) typeAttribs)

/-- A loop of `idt_init` with `n` iterations left, at `i`. -/
def createDescriptors (o : IdtObjects) : ℕ → ℕ → Mem → Mem
  | 0, _, m => m
  | n + 1, i, m => createDescriptors o n (i + 1) (idtCreateDescriptor o m (UInt8.ofNat i) intGate)

/-- `idt_init`: exceptions, `pic_remap`, the ISA lines, the remaining vectors, `lidt` and `sti`. -/
def idtInit (o : IdtObjects) (c : Tables) (p : Pics) : Tables × Pics :=
  let m := createDescriptors o 32 0 c.mem
  let p := picRemap p
  let m := createDescriptors o 16 32 m
  let m := createDescriptors o 208 48 m
  let m := store m 2 o.idtPtr (4096 - 1)
  let m := store m 8 (o.idtPtr + 2) o.idt
  ({ c with mem := m, idtr := loadTableReg m o.idtPtr, interruptFlag := true }, p)

/-! ### Delivery -/

/-- What the processor does with an interrupt: the handler and its code segment, the stack it
switches to, if it does, and the interrupt flag. -/
structure Entry where
  rip : ℕ
  cs : ℕ
  stack : Option ℕ
  interruptFlag : Bool
  deriving DecidableEq, Repr

/-- **Delivery of vector `v`** in ring `cpl`: the gate within the table must be present and an
interrupt or trap gate, its code segment 64-bit code that is no less privileged. The stack is that of
the gate's IST entry, or, from another ring, `rsp[0]` of the TSS; both are read through the task
register. -/
def deliverVector (c : Tables) (cpl v : ℕ) : Option Entry := do
  let gate := c.idtr.base + 16 * v
  if c.idtr.limit + 1 < 16 * v + 16 then none
  else if ¬ present (load c.mem 1 (gate + 5)) ∨ load c.mem 1 (gate + 5) % 32 ∉ [0xE, 0xF] then none
  else
    let selector := load c.mem 2 (gate + 2)
    let ist := load c.mem 1 (gate + 4) % 8
    let d ← descriptor c.gdtr selector 8
    if isCode (accessAt c.mem d) ∧ present (accessAt c.mem d) ∧ isLong c.mem d ∧
        dpl (accessAt c.mem d) ≤ cpl then
      some {
        rip := load c.mem 2 gate + 2 ^ 16 * load c.mem 2 (gate + 6) + 2 ^ 32 * load c.mem 4 (gate + 8)
        cs := selector
        stack :=
          if ist ≠ 0 then some (load c.mem 8 (c.tr.base + 28 + 8 * ist))
          else if dpl (accessAt c.mem d) < cpl then some (load c.mem 8 (c.tr.base + 4))
          else none
        interruptFlag := load c.mem 1 (gate + 5) % 32 = 0xF && c.interruptFlag }
    else none

end FusionCore.Cpu.Idt
