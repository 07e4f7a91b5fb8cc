import FusionCore.Cpu.Idt

/-! # Interrupts after `gdt_init` and `idt_init`

`gdtInit_loads`: the processor takes the table, with the TSS at the base of its descriptor, which
`gdt_init` sets to 0. `gate_fields`: the loops of `idt_init` leave a gate for every vector.

* `delivers`: every vector reaches its handler, in ring 0 on the stack it interrupts and from any
  other ring on the stack at linear address 4.
* `ring_stack_iff`: that is the stack `gdt_init` entered in `tss` exactly if it was there before. -/

namespace FusionCore.Cpu.IdtSpec

open FusionCore.Lib.ByteMem FusionCore.Lib.Fields FusionCore.Cpu.Gdt FusionCore.Cpu.Idt
open FusionCore.Dd.Pic (Pics)

/-- The objects of the two files with their sizes. -/
def objects (g : GdtObjects) (o : IdtObjects) : List (ℕ × ℕ) :=
  [(g.gdt, 56), (g.tss, 104), (g.gdtPtr, 10), (o.idt, 4096), (o.idtPtr, 10), (o.isrVector, 2048)]

/-- The objects do not overlap, and their addresses have 64 bits. -/
structure Placed (g : GdtObjects) (o : IdtObjects) : Prop where
  apart : (objects g o).Pairwise fun a b => a.1 + a.2 ≤ b.1 ∨ b.1 + b.2 ≤ a.1
  gdt_lt : g.gdt < 2 ^ 64
  idt_lt : o.idt < 2 ^ 64
  stack_lt : g.stack + 16384 < 2 ^ 64

/-- The bytes that the two functions may write. -/
def written (g : GdtObjects) (o : IdtObjects) : Set ℕ :=
  Set.Ico g.gdt (g.gdt + 56) ∪ Set.Ico g.tss (g.tss + 104) ∪ Set.Ico g.gdtPtr (g.gdtPtr + 10) ∪
    Set.Ico o.idt (o.idt + 4096) ∪ Set.Ico o.idtPtr (o.idtPtr + 10)

variable {g : GdtObjects} {o : IdtObjects} {c c₁ : Tables} {p : Pics} {m m' : Mem} {a v w n i cpl : ℕ}

/-! ### The global descriptor table -/

theorem gdtFields_apart : gdtFields.Pairwise Apart := by decide

theorem gdtFields_inside : ∀ f ∈ gdtFields, f.offset + f.width ≤ 56 := by decide

theorem gdtPlaced (hP : Placed g o) : (g.gdt + 56 ≤ g.tss ∨ g.tss + 104 ≤ g.gdt) ∧
    (g.gdt + 56 ≤ g.gdtPtr ∨ g.gdtPtr + 10 ≤ g.gdt) ∧
    (g.tss + 104 ≤ g.gdtPtr ∨ g.gdtPtr + 10 ≤ g.tss) := by
  have h := hP.apart
  simp only [objects, List.pairwise_cons, List.mem_cons, forall_eq_or_imp] at h
  exact ⟨h.1.1, h.1.2.1, h.2.1.1⟩

theorem load_gdtMem (hP : Placed g o) {f : Field} (hf : f ∈ gdtFields) :
    load (gdtMem g m) f.width (g.gdt + f.offset) = f.value % 256 ^ f.width := by
  have h := gdtPlaced hP
  have hin := gdtFields_inside f hf
  rw [gdtMem, load_store_of_disjoint (by omega), load_store_of_disjoint (by omega),
    load_store_of_disjoint (by omega), load_store_of_disjoint (by omega)]
  refine (load_congr fun x hx => fill_of_not_mem fun hc => ?_).trans (load_writeFields gdtFields_apart hf)
  rw [Set.mem_Ico] at hx hc
  omega

theorem gdtMem_ptr (hP : Placed g o) : loadTableReg (gdtMem g m) g.gdtPtr = ⟨55, g.gdt⟩ := by
  have h1 : load (gdtMem g m) 2 g.gdtPtr = 55 := by
    rw [gdtMem, load_store_of_disjoint (by omega), load_store_self]
    rfl
  have h2 : load (gdtMem g m) 8 (g.gdtPtr + 2) = g.gdt := by
    rw [gdtMem, load_store_self]
    exact Nat.mod_eq_of_lt (lt_of_lt_of_eq hP.gdt_lt (by norm_num))
  rw [loadTableReg, h1, h2]

theorem gdtMem_tss (hP : Placed g o) : load (gdtMem g m) 8 (g.tss + 4) = g.stack + 16384 := by
  have h := gdtPlaced hP
  rw [gdtMem, load_store_of_disjoint (by omega), load_store_of_disjoint (by omega),
    load_store_of_disjoint (by omega), load_store_self]
  exact Nat.mod_eq_of_lt (lt_of_lt_of_eq hP.stack_lt (by norm_num))

theorem gdtMem_differsOn : DiffersOn (written g o) m (gdtMem g m) := by
  intro x hx
  simp only [written, Set.mem_union, Set.mem_Ico, not_or] at hx
  rw [gdtMem, store_of_not_mem, store_of_not_mem, store_of_not_mem, store_of_not_mem, fill_of_not_mem,
    writeFields_differsOn gdtFields_inside x]
  all_goals
    rw [Set.mem_Ico]
    omega

/-- The table with the TSS marked busy. -/
def busyMem (g : GdtObjects) (m : Mem) : Mem := store (gdtMem g m) 1 (g.gdt + 45) 139

/-- The segment in the task register. -/
def loadedTss (g : GdtObjects) (m : Mem) : TaskReg :=
  ⟨0, load (gdtMem g m) 2 (g.gdt + 40) + 2 ^ 16 * (load (gdtMem g m) 1 (g.gdt + 46) % 16)⟩

section Load
variable (hP : Placed g o)
include hP

theorem field_gdtMem (w n v : ℕ) (hf : ⟨w, n, v⟩ ∈ gdtFields) :
    load (gdtMem g m) w (g.gdt + n) = v % 256 ^ w := load_gdtMem hP hf

theorem ltr_gdtMem (c : Tables) : ltr { c with mem := gdtMem g m, gdtr := ⟨55, g.gdt⟩ } 0x28 =
    some { c with mem := busyMem g m, gdtr := ⟨55, g.gdt⟩, tr := loadedTss g m } := by
  have hacc : accessAt (gdtMem g m) (g.gdt + 40) = 137 := field_gdtMem hP 1 45 137 (by decide)
  have hpres : present 137 = true := by decide
  have hb1 := field_gdtMem (m := m) hP 2 42 0 (by decide)
  have hb2 := field_gdtMem (m := m) hP 1 44 0 (by decide)
  have hb3 := field_gdtMem (m := m) hP 1 47 0 (by decide)
  have hb4 := field_gdtMem (m := m) hP 4 48 0 (by decide)
  simp only [ltr, descriptor, Nat.reduceDiv, Nat.reduceMul, Nat.reduceAdd, le_refl, ne_eq,
    OfNat.ofNat_ne_zero, not_false_eq_true, and_self, if_true, Option.bind_eq_bind,
    Option.bind_some, hacc, hpres, Nat.add_assoc, Nat.reduceMod, hb1, hb2, hb3, hb4, Nat.zero_mod,
    Nat.mul_zero, busyMem, loadedTss]

theorem field_busyMem (w n v : ℕ) (hn : n + w ≤ 45) (hf : ⟨w, n, v⟩ ∈ gdtFields) :
    load (busyMem g m) w (g.gdt + n) = v % 256 ^ w :=
  (load_store_of_disjoint (by omega)).trans (field_gdtMem hP w n v hf)

theorem loadData_busyMem (c : Tables) (hm : c.mem = busyMem g m) (hg : c.gdtr = ⟨55, g.gdt⟩) :
    loadData c 0x10 = some () := by
  have hacc : accessAt c.mem (g.gdt + 16) = 146 := hm ▸ field_busyMem hP 1 21 146 (by omega) (by decide)
  have hdesc : descriptor c.gdtr 0x10 8 = some (g.gdt + 16) := hg ▸ rfl
  rw [loadData, hdesc, Option.bind_eq_bind, Option.bind_some, hacc]
  rfl

omit hP in
theorem code_of_fields {c : Tables} (hacc : load c.mem 1 (g.gdt + 13) = 154)
    (hflags : load c.mem 1 (g.gdt + 14) = 32) : accessAt c.mem (g.gdt + 8) = 154 ∧
      isLong c.mem (g.gdt + 8) = true := by
  refine ⟨hacc, ?_⟩
  rw [isLong, Nat.add_assoc, hflags]
  decide

theorem loadCode_busyMem (c : Tables) (hm : c.mem = busyMem g m) (hg : c.gdtr = ⟨55, g.gdt⟩) :
    loadCode c 0x08 = some () := by
  have hcode := code_of_fields (c := c) (hm ▸ field_busyMem hP 1 13 154 (by omega) (by decide))
    (hm ▸ field_busyMem hP 1 14 32 (by omega) (by decide))
  have hdesc : descriptor c.gdtr 0x08 8 = some (g.gdt + 8) := hg ▸ rfl
  rw [loadCode, hdesc, Option.bind_eq_bind, Option.bind_some, hcode.1, hcode.2]
  rfl

/-- **`gdt_init`**: the processor accepts the descriptors. -/
theorem gdtInit_eq (c : Tables) : gdtInit g c = some { c with
    mem := busyMem g c.mem, gdtr := ⟨55, g.gdt⟩, tr := loadedTss g c.mem, ss := 0x10, cs := 0x08 } := by
  rw [gdtInit, loadGdtTss]
  dsimp only
  rw [gdtMem_ptr hP, ltr_gdtMem hP]
  simp only [Option.bind_eq_bind, Option.bind_some]
  rw [loadData_busyMem (m := c.mem) hP _ rfl rfl, Option.bind_some,
    loadCode_busyMem (m := c.mem) hP _ rfl rfl, Option.bind_some]
  rfl

end Load

/-- **What `gdt_init` leaves**: the table in the processor and, in the task register, address 0; in
memory the kernel's code segment and `tss.rsp[0]`. -/
structure GdtLoaded (g : GdtObjects) (o : IdtObjects) (m : Mem) (c : Tables) : Prop where
  gdtr : c.gdtr = ⟨55, g.gdt⟩
  tr : c.tr.base = 0
  access : load c.mem 1 (g.gdt + 13) = 154
  flags : load c.mem 1 (g.gdt + 14) = 32
  rsp0 : load c.mem 8 (g.tss + 4) = g.stack + 16384
  frame : DiffersOn (written g o) m c.mem

theorem gdtInit_loads (hP : Placed g o) (hc : gdtInit g c = some c₁) : GdtLoaded g o c.mem c₁ := by
  rw [gdtInit_eq hP, Option.some.injEq] at hc
  subst hc
  have h := gdtPlaced hP
  refine ⟨rfl, rfl, field_busyMem hP 1 13 154 (by omega) (by decide),
    field_busyMem hP 1 14 32 (by omega) (by decide),
    (load_store_of_disjoint (by omega)).trans (gdtMem_tss hP), ?_⟩
  refine gdtMem_differsOn.trans fun x hx => store_of_not_mem fun hb => hx ?_
  simp only [written, Set.mem_union, Set.mem_Ico] at hb ⊢
  omega

/-! ### The interrupt descriptor table -/

theorem idtDesc_apart (offset typeAttribs : ℕ) : (idtDesc offset typeAttribs).Pairwise Apart := by
  simp [idtDesc, Apart]

theorem idtDesc_inside (offset typeAttribs : ℕ) :
    ∀ f ∈ idtDesc offset typeAttribs, f.offset + f.width ≤ 16 := by
  simp [idtDesc]

/-- The gate at `a` is a present interrupt gate of ring 0 for `offset`, in the kernel's code segment. -/
structure Gate (m : Mem) (a offset : ℕ) : Prop where
  selector : load m 2 (a + 2) = 8
  ist : load m 1 (a + 4) = 0
  type : load m 1 (a + 5) = 142
  target : load m 2 a + 2 ^ 16 * load m 2 (a + 6) + 2 ^ 32 * load m 4 (a + 8) = offset

theorem Gate.congr (h : Gate m a n) (hs : Set.EqOn m' m (Set.Ico a (a + 16))) : Gate m' a n := by
  have hl : ∀ w k, k + w ≤ 16 → load m' w (a + k) = load m w (a + k) := fun w k hk =>
    load_congr fun x hx => hs ⟨by have := hx.1; omega, by have := hx.2; omega⟩
  have h0 : load m' 2 a = load m 2 a := hl 2 0 (by omega)
  refine ⟨(hl 2 2 (by omega)).trans h.selector, (hl 1 4 (by omega)).trans h.ist,
    (hl 1 5 (by omega)).trans h.type, ?_⟩
  rw [h0, hl 2 6 (by omega), hl 4 8 (by omega)]
  exact h.target

/-- **A descriptor is read back**: the three parts of the address are put together again. -/
theorem gate_writeFields (ho : n < 2 ^ 64) : Gate (writeFields m a (idtDesc n intGate)) a n := by
  have hf : ∀ w k v, ⟨w, k, v⟩ ∈ idtDesc n intGate →
      load (writeFields m a (idtDesc n intGate)) w (a + k) = v % 256 ^ w := fun w k v h =>
    load_writeFields (idtDesc_apart n intGate) h
  have h0 : load (writeFields m a (idtDesc n intGate)) 2 a = (n &&& 0xFFFF) % 256 ^ 2 :=
    hf 2 0 _ (by simp [idtDesc])
  refine ⟨hf 2 2 8 (by simp [idtDesc]), hf 1 4 0 (by simp [idtDesc]),
    hf 1 5 intGate (by simp [idtDesc]), ?_⟩
  rw [h0, hf 2 6 _ (by simp [idtDesc]; rfl), hf 4 8 _ (by simp [idtDesc]; rfl)]
  have h16 : ∀ x, x &&& 0xFFFF = x % 2 ^ 16 := fun x => Nat.and_two_pow_sub_one_eq_mod x 16
  have h32 : ∀ x, x &&& 0xFFFFFFFF = x % 2 ^ 32 := fun x => Nat.and_two_pow_sub_one_eq_mod x 32
  rw [h16, h16, h32, Nat.shiftRight_eq_div_pow, Nat.shiftRight_eq_div_pow]
  omega

/-! ### The loops of `idt_init` -/

section Loop
variable (ho : o.idt + 4096 ≤ o.isrVector ∨ o.isrVector + 2048 ≤ o.idt)

theorem createDescriptors_differsOn (hi : i + n ≤ 256) :
    DiffersOn (Set.Ico (o.idt + 16 * i) (o.idt + 16 * (i + n))) m (createDescriptors o n i m) := by
  induction n generalizing i m with
  | zero => exact DiffersOn.refl _ _
  | succ n ih =>
    have hidx : (UInt8.ofNat i).toNat = i := by
      rw [UInt8.toNat_ofNat']
      omega
    rw [createDescriptors]
    refine DiffersOn.trans ?_ ((ih (i := i + 1) (by omega)).mono fun x hx => ?_)
    · rw [idtCreateDescriptor, hidx]
      refine (writeFields_differsOn (idtDesc_inside _ _)).mono fun x hx => ?_
      rw [Set.mem_Ico] at hx ⊢
      omega
    · rw [Set.mem_Ico] at hx ⊢
      omega

include ho in
theorem handler_congr (hd : DiffersOn (Set.Ico o.idt (o.idt + 4096)) m m') (hv : v < 256) :
    handler o m' v = handler o m v := by
  refine hd.load fun x hx => ?_
  rw [Set.mem_Ico] at hx
  omega

include ho in
/-- **A loop leaves a gate for each of its vectors.** -/
theorem createDescriptors_gate (hi : i + n ≤ 256) (hv : i ≤ v ∧ v < i + n) :
    Gate (createDescriptors o n i m) (o.idt + 16 * v) (handler o m v) := by
  induction n generalizing i m with
  | zero => omega
  | succ n ih =>
    have hidx : (UInt8.ofNat i).toNat = i := by
      rw [UInt8.toNat_ofNat']
      omega
    rw [createDescriptors, idtCreateDescriptor, hidx]
    rcases Nat.eq_or_lt_of_le hv.1 with rfl | hlt
    · -- the later gates are elsewhere
      have hn : handler o m i < 2 ^ 64 := lt_of_lt_of_eq (load_lt _ _ _) (by norm_num)
      refine (gate_writeFields hn).congr fun x hx => createDescriptors_differsOn (by omega) x fun hc => ?_
      rw [Set.mem_Ico] at hx hc
      omega
    · have hd := writeFields_differsOn (m := m) (a := o.idt + 16 * i)
        (idtDesc_inside (handler o m i) intGate)
      rw [← handler_congr ho (hd.mono fun x hx => ?_) (show v < 256 by omega)]
      · exact ih (by omega) ⟨hlt, by omega⟩
      · rw [Set.mem_Ico] at hx ⊢
        omega

theorem createDescriptors_add {k : ℕ} : createDescriptors o (n + k) i m =
    createDescriptors o k (i + n) (createDescriptors o n i m) := by
  induction n generalizing i m with
  | zero => rw [Nat.zero_add]; rfl
  | succ n ih =>
    rw [Nat.succ_add, createDescriptors, ih, createDescriptors, Nat.succ_add_eq_add_succ]

end Loop

/-- What `idt_init` writes. -/
def idtMem (o : IdtObjects) (m : Mem) : Mem :=
  store (store (createDescriptors o 256 0 m) 2 o.idtPtr 4095) 8 (o.idtPtr + 2) o.idt

/-- **`idt_init`**: 256 gates and the table in the processor. -/
theorem idtInit_eq (hP : Placed g o) (c : Tables) (p : Pics) : (idtInit o c p).1 =
    { c with mem := idtMem o c.mem, idtr := ⟨4095, o.idt⟩, interruptFlag := true } := by
  have hloop : createDescriptors o 208 48 (createDescriptors o 16 32 (createDescriptors o 32 0 c.mem)) =
      createDescriptors o 256 0 c.mem := by
    rw [show (256 : ℕ) = 32 + (16 + 208) by norm_num, createDescriptors_add, createDescriptors_add]
  have h1 : load (idtMem o c.mem) 2 o.idtPtr = 4095 := by
    rw [idtMem, load_store_of_disjoint (by omega), load_store_self]
    rfl
  have h2 : load (idtMem o c.mem) 8 (o.idtPtr + 2) = o.idt := by
    rw [idtMem, load_store_self]
    exact Nat.mod_eq_of_lt (lt_of_lt_of_eq hP.idt_lt (by norm_num))
  rw [idtInit]
  dsimp only
  rw [hloop]
  exact congrArg₂
    (fun l b => { c with mem := idtMem o c.mem, idtr := ⟨l, b⟩, interruptFlag := true }) h1 h2

/-! ### Delivery -/

section Delivery
variable (hP : Placed g o)
include hP

theorem idtPlaced : (∀ x ∈ Set.Ico g.gdt (g.gdt + 56),
      x ∉ Set.Ico o.idt (o.idt + 4096) ∪ Set.Ico o.idtPtr (o.idtPtr + 10)) ∧
    (o.idt + 4096 ≤ o.idtPtr ∨ o.idtPtr + 10 ≤ o.idt) ∧
    (o.idt + 4096 ≤ o.isrVector ∨ o.isrVector + 2048 ≤ o.idt) ∧
    ∀ x ∈ Set.Ico o.isrVector (o.isrVector + 2048), x ∉ written g o := by
  have h := hP.apart
  simp only [objects, List.pairwise_cons, List.mem_cons, forall_eq_or_imp] at h
  obtain ⟨⟨-, -, hgi, hgq, hgv, -⟩, ⟨-, -, -, htv, -⟩, ⟨-, -, hpv, -⟩, ⟨hiq, hiv, -⟩, ⟨hqv, -⟩, -⟩ := h
  refine ⟨fun x hx hc => ?_, hiq, hiv, fun x hx hc => ?_⟩
  · simp only [Set.mem_union, Set.mem_Ico] at hx hc
    omega
  · simp only [written, Set.mem_union, Set.mem_Ico] at hx hc
    omega

omit hP in
theorem idtMem_differsOn : DiffersOn (Set.Ico o.idt (o.idt + 4096) ∪ Set.Ico o.idtPtr (o.idtPtr + 10)) m
    (idtMem o m) := by
  intro x hx
  simp only [Set.mem_union, not_or] at hx
  rw [idtMem, store_of_not_mem fun hc => hx.2 ?_, store_of_not_mem fun hc => hx.2 ?_]
  · refine createDescriptors_differsOn (by norm_num) x fun hc => hx.1 ?_
    rwa [Nat.mul_zero, Nat.add_zero] at hc
  · rw [Set.mem_Ico] at hc ⊢
    omega
  · rw [Set.mem_Ico] at hc ⊢
    omega

theorem idtMem_gate (hv : v < 256) : Gate (idtMem o m) (o.idt + 16 * v) (handler o m v) := by
  have h := idtPlaced hP
  refine (createDescriptors_gate h.2.2.1 (i := 0) (n := 256) (by norm_num) ⟨by omega, by omega⟩).congr
    fun x hx => ?_
  rw [Set.mem_Ico] at hx
  rw [idtMem, store_of_not_mem fun hc => ?_, store_of_not_mem fun hc => ?_]
  all_goals
    rw [Set.mem_Ico] at hc
    omega

omit hP in
theorem idtMem_written (h : GdtLoaded g o m c) : DiffersOn (written g o) m (idtMem o c.mem) :=
  h.frame.trans ((idtMem_differsOn).mono fun x hx => by
    simp only [written, Set.mem_union] at hx ⊢
    exact hx.elim (fun h => Or.inl (Or.inr h)) Or.inr)

/-- **A vector is delivered** through its gate to the handler `_isr_vector` named from the start. -/
theorem deliverVector_idtInit (hG : GdtLoaded g o m c₁) (p : Pics) (cpl : ℕ) (hv : v < 256) :
    deliverVector (idtInit o c₁ p).1 cpl v = some
      { rip := handler o m v
        cs := 8
        stack := if cpl = 0 then none else some (load (idtInit o c₁ p).1.mem 8 4)
        interruptFlag := false } := by
  have hI := idtPlaced hP
  have hgate := idtMem_gate (m := c₁.mem) hP hv
  have hsame : Set.EqOn (idtMem o c₁.mem) c₁.mem (Set.Ico g.gdt (g.gdt + 56)) := fun x hx =>
    idtMem_differsOn x (hI.1 x hx)
  rw [idtInit_eq hP c₁ p]
  generalize idtMem o c₁.mem = m' at hgate hsame
  have hl : ∀ k, k + 1 ≤ 56 → load m' 1 (g.gdt + k) = load c₁.mem 1 (g.gdt + k) := fun k hk =>
    load_congr fun x hx => hsame ⟨by have := hx.1; omega, by have := hx.2; omega⟩
  obtain ⟨hacc, hlong⟩ := code_of_fields (c := { c₁ with mem := m' }) ((hl 13 (by omega)).trans hG.access)
    ((hl 14 (by omega)).trans hG.flags)
  have hhandler : handler o c₁.mem v = handler o m v := by
    refine load_congr fun x hx => hG.frame x (hI.2.2.2 x ?_)
    rw [Set.mem_Ico] at hx ⊢
    omega
  have hdesc : descriptor c₁.gdtr 8 8 = some (g.gdt + 8) := by
    rw [hG.gdtr]
    rfl
  have hin : ¬ 4095 + 1 < 16 * v + 16 := by omega
  have htype : ¬ (¬ present 142 = true ∨ 142 % 32 ∉ [0xE, 0xF]) := by decide
  have hring : dpl 154 = 0 := by decide
  rw [← hhandler, ← hgate.target]
  dsimp only at hacc hlong
  simp only [deliverVector, hgate.selector, hgate.ist, hgate.type, hG.tr, hdesc, Option.bind_eq_bind,
    Option.bind_some, hacc, hlong, if_neg hin, if_neg htype, hring, Nat.zero_mod]
  rw [if_pos ⟨by decide, by decide, trivial, Nat.zero_le _⟩]
  cases cpl with
  | zero => rfl
  | succ k =>
    rw [if_neg (by decide), if_pos (Nat.succ_pos k), if_neg (Nat.succ_ne_zero k)]
    rfl

/-- **From another ring, `tss.rsp[0]` is not used**: with the objects above address 12, an interrupt
from there arrives on the kernel's stack exactly if linear address 4 named it before `gdt_init`. -/
theorem ring_stack_iff (hg : ∀ x ∈ written g o, 12 ≤ x) (c : Tables) (p : Pics)
    (hc : gdtInit g c = some c₁) (v cpl : ℕ) (hv : v < 256) (hr : cpl ≠ 0) :
    (deliverVector (idtInit o c₁ p).1 cpl v).map Entry.stack = some (some (g.stack + 16384)) ↔
      load c.mem 8 4 = g.stack + 16384 := by
  have hG := gdtInit_loads hP hc
  have hsame : load (idtInit o c₁ p).1.mem 8 4 = load c.mem 8 4 := by
    rw [idtInit_eq hP c₁ p]
    refine load_congr fun x hx => idtMem_written hG x fun hw => ?_
    have := hg x hw
    have := hx.2
    omega
  rw [deliverVector_idtInit hP hG p cpl hv, Option.map_some, if_neg hr, hsame]
  simp

end Delivery

/-! ### A machine without tables -/

/-- Six objects in the first 64 KiB. -/
def lowGdt : GdtObjects := ⟨0x1000, 0x2000, 0x3000, 0xA000⟩

def lowIdt : IdtObjects := ⟨0x4000, 0x6000, 0x7000⟩

theorem placed_low : Placed lowGdt lowIdt := ⟨by decide, by decide, by decide, by decide⟩

/-- A table of stubs of 16 bytes from 0x10000 on, and 0x9000 at linear address 4. -/
def stubMem : Mem := fun a =>
  if 0x7000 ≤ a then UInt8.ofNat ((0x10000 + 16 * ((a - 0x7000) / 8)) / 256 ^ ((a - 0x7000) % 8))
  else if a = 5 then 0x90 else 0

/-- No table is loaded. -/
def bareTables : Tables := ⟨stubMem, ⟨0, 0⟩, ⟨0, 0⟩, ⟨0, 0⟩, 0, 0, false⟩

/-- The controllers before `pic_remap`. -/
def resetPics : Pics := ⟨⟨.ready, 0#8, 0#8, 0#8, 0#8⟩, ⟨.ready, 0#8, 0#8, 0#8, 0#8⟩⟩

theorem low_written : ∀ x ∈ written lowGdt lowIdt, 12 ≤ x := fun x hx => by
  simp only [written, lowGdt, lowIdt, Set.mem_union, Set.mem_Ico] at hx
  omega

/-- Interrupt 32 in ring 3 does not arrive on the kernel's stack. -/
theorem ring_stack_low : ∃ c₁, gdtInit lowGdt bareTables = some c₁ ∧
    (deliverVector (idtInit lowIdt c₁ resetPics).1 3 32).map Entry.stack ≠ some (some 0xE000) := by
  refine ⟨_, gdtInit_eq placed_low bareTables, fun h => ?_⟩
  have hz : load bareTables.mem 8 4 = 0x9000 := by decide
  have := (ring_stack_iff placed_low low_written bareTables resetPics
    (gdtInit_eq placed_low bareTables) 32 3
    (by decide) (by decide)).mp h
  rw [hz] at this
  exact absurd this (by decide)

end FusionCore.Cpu.IdtSpec
