import FusionCore.Dd.Pic

/-! # Masking interrupt lines and remapping the vectors

The intended law of the masks: a line is masked after a sequence of calls if the last call that
concerns it masks it, and no call changes a line it does not concern (`MaskLaw`). The driver reaches
the master's data port only, so the law holds along a sequence exactly as long as every call is
`Harmless`: it names a line of the master, or what it should do to the slave and what it does to the
master in its place are done already (`maskLaw_iff`).

`Remapped` is what `pic_remap` is for. As it never reaches the slave's ports either, the master takes both
chips' words (`picRemap_eq`), and the slave's vector base goes to the master's cascade word
(`not_remapped`). -/

namespace FusionCore.Dd.PicSpec

open FusionCore.Dd.Pic

/-- A call of the masking interface. -/
inductive PicOp
  | setMask (irqLine : ℕ)
  | clearMask (irqLine : ℕ)
  | disable
  deriving DecidableEq, Repr

/-- The effect of a call. -/
def exec (p : Pics) : PicOp → Pics
  | .setMask n => picSetMask p n
  | .clearMask n => picClearMask p n
  | .disable => picDisable p

/-- The chips after a sequence of calls. -/
def run (p : Pics) (ops : List PicOp) : Pics := ops.foldl exec p

/-- Line `n` is masked. -/
def masked (p : Pics) (n : ℕ) : Bool :=
  if n < 8 then p.master.mask.getLsbD n else p.slave.mask.getLsbD (n - 8)

/-- Both chips are in operation. -/
def Ready (p : Pics) : Prop := p.master.phase = .ready ∧ p.slave.phase = .ready

/-- The calls name one of the sixteen lines. -/
def PicOp.InRange : PicOp → Prop
  | .setMask n | .clearMask n => n < 16
  | .disable => True

/-- The call concerns line `n`. -/
def PicOp.concerns (n : ℕ) : PicOp → Bool
  | .setMask k | .clearMask k => k = n
  | .disable => true

/-- The call masks the lines it concerns. -/
def PicOp.masks : PicOp → Bool
  | .setMask _ | .disable => true
  | .clearMask _ => false

/-- What the calls ask of line `n`: the last one that concerns it decides. -/
def asked (ops : List PicOp) (n : ℕ) (before : Bool) : Bool :=
  match (ops.filter (·.concerns n)).getLast? with
  | some o => o.masks
  | none => before

/-- **The law of the masks** for a sequence of calls: each line is as asked, and no call has changed
a line it does not concern. -/
structure MaskLaw (p : Pics) (ops : List PicOp) : Prop where
  asked : ∀ n < 16, masked (run p ops) n = asked ops n (masked p n)
  kept : ∀ pre o post, ops = pre ++ o :: post → ∀ n < 16, o.concerns n = false →
    masked (run p (pre ++ [o])) n = masked (run p pre) n

/-- **The condition on a call** in the state before it: it names a line of the master, or the line of the
slave and the line of the master in its place are already as asked. -/
def Harmless (p : Pics) : PicOp → Prop
  | .setMask n => 8 ≤ n → masked p n = true ∧ masked p (n - 8) = true
  | .clearMask n => 8 ≤ n → masked p n = false ∧ masked p (n - 8) = false
  | .disable => ∀ n, 8 ≤ n → n < 16 → masked p n = true

/-! ### One call -/

/-- The driver's call reaches line `n`. -/
def PicOp.reaches (n : ℕ) : PicOp → Bool
  | .setMask k | .clearMask k => n = k % 8
  | .disable => n < 8

theorem getLsbD_lineBit {k n : ℕ} (hk : k < 8) (hn : n < 8) : (lineBit k).getLsbD n = decide (n = k) := by
  interval_cases k <;> interval_cases n <;> rfl

theorem portOf_eq {n : ℕ} (hn : n < 16) : portOf n = (0x21, n % 8) := by
  interval_cases n <;> rfl

section Step
variable {p : Pics} (hp : Ready p)
include hp

theorem ready_exec (o : PicOp) (ho : o.InRange) : Ready (exec p o) := by
  obtain ⟨h1, h2⟩ := hp
  cases o with
  | setMask k => simp [exec, picSetMask, portOf_eq ho, ioOutb, Chip.data, Ready, h1, h2]
  | clearMask k => simp [exec, picClearMask, portOf_eq ho, ioOutb, Chip.data, Ready, h1, h2]
  | disable => simp [exec, picDisable, pic1Data, pic2Data, pic1, ioOutb, Chip.data, Ready, h1, h2]

theorem masked_exec {o : PicOp} (ho : o.InRange) {n : ℕ} (hn : n < 16) :
    masked (exec p o) n = if o.reaches n then o.masks else masked p n := by
  have hmask : ∀ v, masked (ioOutb p 0x21 v) n = if n < 8 then v.getLsbD n else masked p n := by
    intro v
    simp only [ioOutb, Chip.data, hp.1, masked]
    by_cases h8 : n < 8 <;> simp [h8]
  have hk : ∀ k : ℕ, k % 8 < 8 := fun k => Nat.mod_lt _ (by norm_num)
  cases o with
  | setMask k =>
    rw [exec, picSetMask, portOf_eq ho, hmask, PicOp.reaches]
    by_cases h8 : n < 8
    · rw [if_pos h8, BitVec.getLsbD_or, getLsbD_lineBit (hk k) h8]
      by_cases hnk : n = k % 8 <;> simp [hnk, PicOp.masks, ioInb, masked, h8, hk]
    · simp [h8, show n ≠ k % 8 by have := hk k; omega]
  | clearMask k =>
    rw [exec, picClearMask, portOf_eq ho, hmask, PicOp.reaches]
    by_cases h8 : n < 8
    · rw [if_pos h8, BitVec.getLsbD_and, BitVec.getLsbD_not, getLsbD_lineBit (hk k) h8]
      by_cases hnk : n = k % 8 <;> simp [hnk, PicOp.masks, ioInb, masked, h8, hk]
    · simp [h8, show n ≠ k % 8 by have := hk k; omega]
  | disable =>
    simp only [exec, picDisable, pic1Data, pic2Data, pic1, ioOutb, Chip.data, hp.1, masked, PicOp.reaches]
    by_cases h8 : n < 8
    · have : ∀ k < 8, (0xFF#8).getLsbD k = true := by decide
      simp [h8, this n h8, PicOp.masks]
    · simp [h8]

omit hp in
theorem line_iff {f : ℕ → Bool} {k : ℕ} {v : Bool} (hk : k < 16) : (8 ≤ k → f k = v ∧ f (k - 8) = v) ↔
    ∀ n < 16, (if n = k % 8 then v else f n) = if k = n then v else f n := by
  constructor
  · intro h n hn
    by_cases h8 : 8 ≤ k
    · obtain ⟨h1, h2⟩ := h h8
      have hm : k % 8 = k - 8 := by omega
      split_ifs with h3 h4 h4
      · rfl
      · rw [h3, hm, h2]
      · rw [← h4, h1]
      · rfl
    · rw [Nat.mod_eq_of_lt (by omega)]
      simp only [eq_comm]
  · intro h h8
    have hm : k % 8 = k - 8 := by omega
    have h1 := h k hk
    have h2 := h (k - 8) (by omega)
    rw [if_neg (by omega), if_pos rfl] at h1
    rw [if_pos hm.symm, if_neg (by omega)] at h2
    exact ⟨h1, h2.symm⟩

theorem harmless_iff {o : PicOp} (ho : o.InRange) : Harmless p o ↔
    ∀ n < 16, masked (exec p o) n = if o.concerns n then o.masks else masked p n := by
  have hexec : (∀ n < 16, masked (exec p o) n = if o.concerns n then o.masks else masked p n) ↔
      ∀ n < 16, (if o.reaches n then o.masks else masked p n) =
        if o.concerns n then o.masks else masked p n :=
    forall₂_congr fun n hn => by rw [masked_exec hp ho hn]
  rw [hexec]
  cases o with
  | setMask k =>
    simp only [PicOp.reaches, PicOp.concerns, decide_eq_true_eq]
    exact line_iff ho
  | clearMask k =>
    simp only [PicOp.reaches, PicOp.concerns, decide_eq_true_eq]
    exact line_iff ho
  | disable =>
    constructor
    · intro h n hn
      by_cases h8 : n < 8
      · simp [PicOp.reaches, PicOp.concerns, h8]
      · simp [PicOp.reaches, PicOp.concerns, PicOp.masks, h n (by omega) hn]
    · intro h n h8 hn
      simpa [PicOp.reaches, PicOp.concerns, PicOp.masks, show ¬ n < 8 by omega] using h n hn

end Step

/-! ### Sequences -/

theorem run_snoc (p : Pics) (ops : List PicOp) (o : PicOp) : run p (ops ++ [o]) = exec (run p ops) o := by
  simp [run]

theorem asked_snoc (ops : List PicOp) (o : PicOp) (n : ℕ) (b : Bool) :
    asked (ops ++ [o]) n b = if o.concerns n then o.masks else asked ops n b := by
  unfold asked
  rw [List.filter_append]
  by_cases h : o.concerns n = true <;> simp [h]

section Sequence
variable {p : Pics} {ops : List PicOp}

theorem ready_run (hp : Ready p) (ho : ∀ o ∈ ops, o.InRange) : Ready (run p ops) := by
  induction ops using List.reverseRecOn with
  | nil => exact hp
  | append_singleton ops o ih =>
    rw [run_snoc]
    exact ready_exec (ih fun o' h => ho o' (by simp [h])) o (ho o (by simp))

theorem masked_run (hp : Ready p) (ho : ∀ o ∈ ops, o.InRange)
    (hh : ∀ pre o post, ops = pre ++ o :: post → Harmless (run p pre) o) {n : ℕ} (hn : n < 16) :
    masked (run p ops) n = asked ops n (masked p n) := by
  induction ops using List.reverseRecOn with
  | nil => rfl
  | append_singleton ops o ih =>
    have ho' : ∀ o' ∈ ops, o'.InRange := fun o' h => ho o' (by simp [h])
    have hlast := (harmless_iff (ready_run hp ho') (ho o (by simp))).mp (hh ops o [] rfl) n hn
    rw [run_snoc, hlast, asked_snoc]
    rw [ih ho' fun pre o' post h => hh pre o' (post ++ [o]) (by rw [h]; simp)]

/-- **The masks follow the calls exactly as long as every call is harmless.** -/
theorem maskLaw_iff (hp : Ready p) (ho : ∀ o ∈ ops, o.InRange) :
    (∀ pre, pre <+: ops → MaskLaw p pre) ↔
      ∀ pre o post, ops = pre ++ o :: post → Harmless (run p pre) o := by
  constructor
  · intro h pre o post he
    have hpre : ∀ o' ∈ pre, o'.InRange := fun o' h' => ho o' (by rw [he]; simp [h'])
    refine (harmless_iff (ready_run hp hpre) (ho o (by rw [he]; simp))).mpr fun n hn => ?_
    have h1 := (h (pre ++ [o]) ⟨post, by rw [he]; simp⟩).asked n hn
    rw [run_snoc, asked_snoc] at h1
    rw [h1, (h pre ⟨o :: post, he.symm⟩).asked n hn]
  · rintro h pre ⟨rest, he⟩
    have hpre : ∀ o' ∈ pre, o'.InRange := fun o' h' => ho o' (by rw [← he]; simp [h'])
    have hh : ∀ pre' o post, pre = pre' ++ o :: post → Harmless (run p pre') o :=
      fun pre' o post h' => h pre' o (post ++ rest) (by rw [← he, h']; simp)
    refine ⟨fun n hn => masked_run hp hpre hh hn, fun pre' o post h' n hn hc => ?_⟩
    have hpre' : ∀ o' ∈ pre', o'.InRange := fun o' h'' => hpre o' (by rw [h']; simp [h''])
    have hstep := (harmless_iff (ready_run hp hpre') (hpre o (by rw [h']; simp))).mp (hh pre' o post h')
    rw [run_snoc, hstep n hn, hc]
    simp

end Sequence

/-- Both chips in operation with nothing masked. -/
def openPics : Pics := ⟨⟨.ready, 0#8, 0x20#8, 4#8, 1#8⟩, ⟨.ready, 0#8, 0x28#8, 2#8, 1#8⟩⟩

theorem maskLaw_iff_masters : MaskLaw openPics [PicOp.setMask 3, .setMask 5, .clearMask 3] := by
  refine (maskLaw_iff ⟨rfl, rfl⟩ (by simp [PicOp.InRange])).mpr (fun pre o post h => ?_) _ List.prefix_rfl
  have ho : o ∈ [PicOp.setMask 3, .setMask 5, .clearMask 3] := by rw [h]; simp
  simp only [List.mem_cons, List.not_mem_nil, or_false] at ho
  rcases ho with rfl | rfl | rfl <;> exact fun h8 => absurd h8 (by norm_num)

/-- Masking line 8 masks line 0 and leaves line 8 open. -/
theorem setMask_eight_masks_zero : ¬ MaskLaw openPics [.setMask 8] := by
  intro h
  have h8 := h.asked 8 (by norm_num)
  exact absurd h8 (by decide)

/-! ### Remapping -/

/-- **What `pic_remap` is for**: from the chips `p` to the chips `p'`. -/
structure Remapped (p p' : Pics) : Prop where
  ready : Ready p'
  masterBase : p'.master.vectorBase = 0x20#8
  slaveBase : p'.slave.vectorBase = 0x28#8
  masterCascade : p'.master.cascade = 0x04#8
  slaveCascade : p'.slave.cascade = 0x02#8
  master8086 : p'.master.mode.getLsbD 0 = true
  slave8086 : p'.slave.mode.getLsbD 0 = true
  masterMask : p'.master.mask = p.master.mask
  slaveMask : p'.slave.mask = p.slave.mask

theorem initialise (c : Chip) (base cascade mode : BitVec 8) :
    (((c.command 0x11#8).data base).data cascade).data mode = ⟨.ready, 0#8, base, cascade, mode⟩ := rfl

theorem command_command (c : Chip) : (c.command 0x11#8).command 0x11#8 = c.command 0x11#8 := rfl

theorem ioOutb_data (p : Pics) (v : BitVec 8) :
    ioOutb p 0x21 v = { p with master := p.master.data v } := rfl

theorem ioOutb_ready {p : Pics} (h : p.master.phase = .ready) (v : BitVec 8) :
    ioOutb p 0x21 v = { p with master := { p.master with mask := v } } := by
  rw [ioOutb_data]
  simp only [Chip.data, h]

/-- **What `pic_remap` does**: the slave's vector base is the master's ICW3, the master's cascade word its
ICW4, and every later word goes to its mask. -/
theorem picRemap_eq (p : Pics) :
    picRemap p = { p with master := ⟨.ready, p.master.mask, 0x20#8, 0x28#8, 0x04#8⟩ } := by
  have hwords : ioOutb (ioOutb (ioOutb (ioOutb (ioOutb p 0x20 0x11#8) 0x20 0x11#8) 0x21 0x20#8)
      0x21 0x28#8) 0x21 0x04#8 = { p with master := ⟨.ready, 0#8, 0x20#8, 0x28#8, 0x04#8⟩ } := by
    have h := initialise p.master 0x20#8 0x28#8 0x04#8
    rw [← command_command] at h
    simp only [ioOutb_data]
    exact congrArg (fun m => { p with master := m }) h
  have hmask : ioInb p 0x21 = p.master.mask := rfl
  have hports : pic1Command = 0x20 ∧ pic1Data = 0x21 ∧ pic2Command = 0x20 ∧ pic2Data = 0x21 :=
    ⟨rfl, rfl, rfl, rfl⟩
  obtain ⟨h1, h2, h3, h4⟩ := hports
  simp only [picRemap, h1, h2, h3, h4, hwords, hmask]
  simp only [ioOutb_ready]

/-- **`pic_remap` never does what it is for**: the master's cascade word is the slave's vector base. -/
theorem not_remapped (p : Pics) : ¬ Remapped p (picRemap p) := by
  intro h
  have hc := h.masterCascade
  rw [picRemap_eq] at hc
  simp at hc

/-- Two chips in operation as the firmware leaves them, with the lines 3 and 9 masked. -/
def firmwarePics : Pics := ⟨⟨.ready, 0x08#8, 0x08#8, 4#8, 1#8⟩, ⟨.ready, 0x02#8, 0x70#8, 2#8, 1#8⟩⟩

/-- From there the slave keeps its vector base. -/
theorem firmware_not_remapped :
    Ready firmwarePics ∧ (picRemap firmwarePics).slave.vectorBase = 0x70#8 ∧
      ¬ Remapped firmwarePics (picRemap firmwarePics) := by
  refine ⟨⟨rfl, rfl⟩, rfl, fun h => ?_⟩
  exact absurd h.slaveBase (by decide)

end FusionCore.Dd.PicSpec
