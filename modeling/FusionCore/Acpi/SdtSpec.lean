import FusionCore.Acpi.Sdt

/-! # Finding a table through the RSDT and through the XSDT

For a list `ts` of tables, `Finds` is what `_acpi_find_sdt` should come to: the first table with the
signature, or a panic. Through an RSDT it does. The entries of an XSDT have 64 bits, and read as
32-bit words they are the first half of the list with a NULL after each table; so through an XSDT it
does exactly in the cases of `HalfSuffices` (`finds_iff`).

A table is accepted by its checksum, which is computed with a counter of eight bits: the loop ends
exactly for tables of at most 255 bytes (`checksum_decides_iff`). -/

namespace FusionCore.Acpi.SdtSpec

open FusionCore.Lib.ByteMem FusionCore.Mm.Defs FusionCore.Acpi.Sdt

/-- The table at `t` has the signature. -/
def HasSig (m : Mem) (sig : ℕ → UInt8) (t : ℕ) : Prop := ∀ i < 4, m (t + i) = sig i

instance (m : Mem) (sig : ℕ → UInt8) (t : ℕ) : Decidable (HasSig m sig t) := by
  unfold HasSig; infer_instance

/-- The RSDT at `r` lists the tables `ts`. -/
structure EncodesRsdt (m : Mem) (r : ℕ) (ts : List ℕ) : Prop where
  len : sdtLen m r = 36 + 4 * ts.length
  entry : ∀ i (h : i < ts.length), load m 4 (r + 36 + 4 * i) = ts[i]

/-- The XSDT at `x` lists the tables `ts`. -/
structure EncodesXsdt (m : Mem) (x : ℕ) (ts : List ℕ) : Prop where
  len : sdtLen m x = 36 + 8 * ts.length
  entry : ∀ i (h : i < ts.length), load64 m (x + 36 + 8 * i) = ts[i]

/-- The root table that is used lists the tables `ts`. -/
def EncodesRoot (m : Mem) (roots : Roots) (ts : List ℕ) : Prop :=
  if roots.hasXsdt then EncodesXsdt m roots.xsdt ts else EncodesRsdt m roots.rsdt ts

/-- The 32-bit words of an entry of 64 bits. -/
def halves (t : ℕ) : List ℕ := [t % 2 ^ 32, t / 2 ^ 32]

/-- The addresses `_acpi_find_sdt` goes through, where the root table lists `ts`: as many words as
there are entries, and in an XSDT these are halves of entries. -/
def rootWords (roots : Roots) (ts : List ℕ) : List ℕ :=
  if roots.hasXsdt then (ts.flatMap halves).take ts.length else ts

/-- Tables below 4 GiB whose checksums are accepted. -/
structure Tables (m : Mem) (ts : List ℕ) : Prop where
  ne_zero : ∀ t ∈ ts, t ≠ 0
  below : ∀ t ∈ ts, t < 2 ^ 32
  accepted : ∀ t ∈ ts, ∃ fuel, acpiVerifySdtChecksum fuel m t = .ok true

/-- **What `_acpi_find_sdt` should come to.** -/
def Finds (m : Mem) (ts : List ℕ) (sig : ℕ → UInt8) (r : Except Halt ℕ) : Prop :=
  match ts.find? (HasSig m sig ·) with
  | some t => r = .ok (physToHigherHalfData t)
  | none => ∃ msg, r = .error (.panic msg)

/-- The checksum of the bytes at `t` is rejected. -/
def Rejected (m : Mem) (t : ℕ) : Prop := sdtLen m t < 256 ∧ byteSum m t (sdtLen m t) 0 ≠ 0

/-- **The condition on the XSDT**: a table with the signature is in the first half of the list if there is
one; and if the bytes at address 0 have the signature, they are not looked at, because the list or
the search ends before, or they are rejected and there is no such table anyway. -/
structure HalfSuffices (m : Mem) (ts : List ℕ) (sig : ℕ → UInt8) : Prop where
  half : (∃ t ∈ ts, HasSig m sig t) → ∃ t ∈ ts.take ((ts.length + 1) / 2), HasSig m sig t
  null : HasSig m sig 0 → ts.length ≤ 1 ∨ (∃ t ∈ ts.take 1, HasSig m sig t) ∨
    ((∀ t ∈ ts, ¬ HasSig m sig t) ∧ Rejected m 0)

/-! ### The search over a list -/

section Search
variable {fuel : ℕ} {m : Mem} {sig : ℕ → UInt8}

theorem acpiVerifySdt_eq (t : ℕ) : acpiVerifySdt fuel m t sig =
    if HasSig m sig t then acpiVerifySdtChecksum fuel m t else .ok false := by
  have h : memcmp (fun i => m (t + i)) sig 4 0 = 0 ↔ HasSig m sig t := by
    rw [memcmp_eq_zero_iff, HasSig]
    exact ⟨fun h i hi => h i (Nat.zero_le _) (by omega), fun h j _ h2 => h j (by omega)⟩
  rw [acpiVerifySdt]
  simp only [h]

theorem accepted_of_exists (hf : 256 ≤ fuel) {t : ℕ}
    (h : ∃ fuel, acpiVerifySdtChecksum fuel m t = .ok true) :
    acpiVerifySdtChecksum fuel m t = .ok true := by
  obtain ⟨f, h⟩ := h
  have h0 : (0 : UInt8).toNat + sdtLen m t = sdtLen m t := Nat.zero_add _
  have hl : sdtLen m t < 256 := by
    by_contra hl
    rw [acpiVerifySdtChecksum, checksumLoop_none (by omega)] at h
    cases h
  have hlf : sdtLen m t < f := by
    by_contra hlf
    rw [acpiVerifySdtChecksum, checksumLoop_short hl h0 (by omega)] at h
    cases h
  rw [acpiVerifySdtChecksum, checksumLoop_eq hl h0 hlf] at h
  rw [acpiVerifySdtChecksum, checksumLoop_eq hl h0 (by omega)]
  exact h

/-- `_acpi_find_sdt` over the list of the entries it reads. -/
def scan (fuel : ℕ) (m : Mem) (sig : ℕ → UInt8) : List ℕ → Except Halt ℕ
  | [] => .error (.panic .sdtNotFound)
  | t :: l => do
    if ← acpiVerifySdt fuel m t sig then return physToHigherHalfData t
    else scan fuel m sig l

theorem findLoop_eq_scan (t : Roots) : ∀ k i : ℕ,
    findLoop fuel m t sig k i = scan fuel m sig ((List.range' i k).map (rootEntry m t))
  | 0, _ => rfl
  | k + 1, i => by
    rw [findLoop, List.range'_succ, List.map_cons, scan, findLoop_eq_scan t k (i + 1)]

theorem acpiFindSdt_eq_scan (t : Roots) : acpiFindSdt fuel m t sig =
    scan fuel m sig ((List.range (entryCount m t)).map (rootEntry m t)) := by
  rw [acpiFindSdt, findLoop_eq_scan, List.range_eq_range']

theorem checksum_bind {α : Type} (t : ℕ) (f : Bool → Except Halt α) :
    acpiVerifySdtChecksum fuel m t >>= f = acpiVerifySdtChecksum fuel m t >>= fun _ => f true := by
  rw [acpiVerifySdtChecksum]
  cases checksumLoop m t fuel 0 0 with
  | none => rfl
  | some cs =>
    by_cases h : cs = 0
    · simp only [if_pos h]
      rfl
    · simp only [if_neg h]
      rfl

theorem scan_cons (t : ℕ) (l : List ℕ) : scan fuel m sig (t :: l) =
    if HasSig m sig t then acpiVerifySdtChecksum fuel m t >>= fun _ => .ok (physToHigherHalfData t)
    else scan fuel m sig l := by
  rw [scan, acpiVerifySdt_eq]
  split_ifs
  · exact checksum_bind t _
  · rfl

/-- **The search** stops at the first table with the signature. -/
theorem scan_eq_elim (l : List ℕ) : scan fuel m sig l =
    (l.find? (HasSig m sig ·)).elim (.error (.panic .sdtNotFound)) fun t =>
      acpiVerifySdtChecksum fuel m t >>= fun _ => .ok (physToHigherHalfData t) := by
  induction l with
  | nil => rfl
  | cons t l ih =>
    rw [scan_cons, List.find?_cons]
    by_cases ht : HasSig m sig t
    · rw [if_pos ht, decide_eq_true ht]
      rfl
    · rw [if_neg ht, decide_eq_false ht, ih]

theorem scan_eq (hf : 256 ≤ fuel) {l : List ℕ}
    (h : ∀ t ∈ l, HasSig m sig t → ∃ fuel, acpiVerifySdtChecksum fuel m t = .ok true) :
    scan fuel m sig l =
      (l.find? (HasSig m sig ·)).elim (.error (.panic .sdtNotFound)) fun t =>
        .ok (physToHigherHalfData t) := by
  rw [scan_eq_elim]
  cases hfind : l.find? (HasSig m sig ·) with
  | none => rfl
  | some t =>
    have hsig : HasSig m sig t := by simpa using List.find?_some hfind
    rw [Option.elim_some, Option.elim_some,
      accepted_of_exists hf (h t (List.mem_of_find?_eq_some hfind) hsig)]
    rfl

end Search

/-! ### The two root tables -/

section Roots
variable {m : Mem} {r x : ℕ} {ts : List ℕ}

theorem entries_rsdt (he : EncodesRsdt m r ts) :
    (List.range (entryCount m ⟨r, x, false⟩)).map (rootEntry m ⟨r, x, false⟩) = ts := by
  have hc : entryCount m ⟨r, x, false⟩ = ts.length := by
    have hlt := load_lt m 4 (r + 4)
    have hl : load m 4 (r + 4) = 36 + 4 * ts.length := he.len
    show (sdtLen m r + (2 ^ 64 - 36)) % 2 ^ 64 / 4 = _
    rw [he.len]
    norm_num at hlt
    omega
  refine List.ext_getElem (by simp [hc]) fun i h1 h2 => ?_
  rw [List.getElem_map, List.getElem_range]
  exact he.entry i h2

theorem getElem?_flatMap_halves (i : ℕ) : (ts.flatMap halves)[i]? =
    ts[i / 2]?.map fun t => if i % 2 = 0 then t % 2 ^ 32 else t / 2 ^ 32 := by
  induction ts generalizing i with
  | nil => rfl
  | cons t ts ih =>
    rw [List.flatMap_cons]
    rcases i with _ | _ | i
    · rfl
    · rfl
    · rw [show (i + 1 + 1) / 2 = i / 2 + 1 by omega, show (i + 1 + 1) % 2 = i % 2 by omega,
        List.getElem?_cons_succ, ← ih]
      rfl

theorem entries_xsdt (hx : EncodesXsdt m x ts) :
    (List.range (entryCount m ⟨r, x, true⟩)).map (rootEntry m ⟨r, x, true⟩) =
      (ts.flatMap halves).take ts.length := by
  have hc : entryCount m ⟨r, x, true⟩ = ts.length := by
    have hlt := load_lt m 4 (x + 4)
    have hl : load m 4 (x + 4) = 36 + 8 * ts.length := hx.len
    show (sdtLen m x + (2 ^ 64 - 36)) % 2 ^ 64 / 8 = _
    rw [hx.len]
    norm_num at hlt
    omega
  rw [hc]
  refine List.ext_getElem? fun i => ?_
  rw [List.getElem?_take, getElem?_flatMap_halves, List.getElem?_map]
  split_ifs with hi hpar
  rotate_left 2
  · rw [List.getElem?_eq_none (by simpa using hi)]
    rfl
  all_goals
    have hi2 : i / 2 < ts.length := by omega
    -- the entry that the word is a half of
    have hent := hx.entry (i / 2) hi2
    rw [load64, load_add m 4 4] at hent
    have hlo := load_lt m 4 (x + 36 + 8 * (i / 2))
    norm_num at hlo hent
    rw [List.getElem?_range hi, List.getElem?_eq_getElem hi2, Option.map_some, Option.map_some]
    show some (load m 4 (x + 36 + 4 * i)) = _
  · rw [show x + 36 + 4 * i = x + 36 + 8 * (i / 2) by omega, ← hent]
    congr 1
    omega
  · rw [show x + 36 + 4 * i = x + 36 + 8 * (i / 2) + 4 by omega, ← hent]
    congr 1
    omega

/-- **The words the search goes through**, for either root table. -/
theorem entries_root {roots : Roots} (he : EncodesRoot m roots ts) :
    (List.range (entryCount m roots)).map (rootEntry m roots) = rootWords roots ts := by
  obtain ⟨r, x, hasXsdt⟩ := roots
  cases hasXsdt with
  | false => exact entries_rsdt he
  | true => exact entries_xsdt he

theorem rootWords_lt {roots : Roots} (he : EncodesRoot m roots ts) :
    ∀ t ∈ rootWords roots ts, t < 2 ^ 32 := by
  rw [← entries_root he]
  intro t ht
  obtain ⟨i, -, rfl⟩ := List.mem_map.mp ht
  have h := load_lt m 4 (roots.table + 36 + 4 * i)
  norm_num at h
  exact h

theorem acpiFindSdt_eq {fuel : ℕ} {sig : ℕ → UInt8} {roots : Roots} (he : EncodesRoot m roots ts) :
    acpiFindSdt fuel m roots sig =
      ((rootWords roots ts).find? (HasSig m sig ·)).elim (.error (.panic .sdtNotFound)) fun t =>
        acpiVerifySdtChecksum fuel m t >>= fun _ => .ok (physToHigherHalfData t) := by
  rw [acpiFindSdt_eq_scan, entries_root he, scan_eq_elim]

/-! ### Tables below 4 GiB -/

theorem halves_of_lt {t : ℕ} (h : t < 2 ^ 32) : halves t = [t, 0] := by
  rw [halves, Nat.mod_eq_of_lt h, Nat.div_eq_of_lt h]

theorem mem_halves (hb : ∀ t ∈ ts, t < 2 ^ 32) {w : ℕ} (hw : w ∈ ts.flatMap halves) : w ∈ ts ∨ w = 0 := by
  obtain ⟨t, ht, hw⟩ := List.mem_flatMap.mp hw
  rw [halves_of_lt (hb t ht)] at hw
  rcases List.mem_pair.mp hw with rfl | rfl
  · exact Or.inl ht
  · exact Or.inr rfl

theorem find?_halves {p : ℕ → Bool} (hz : p 0 = false) (hb : ∀ t ∈ ts, t < 2 ^ 32) (n : ℕ) :
    ((ts.flatMap halves).take n).find? p = (ts.take ((n + 1) / 2)).find? p := by
  induction ts generalizing n with
  | nil => simp
  | cons t ts ih =>
    rw [List.flatMap_cons, halves_of_lt (hb t (by simp))]
    rcases n with _ | _ | n
    · rfl
    · simp
    · rw [show (n + 1 + 1 + 1) / 2 = (n + 1) / 2 + 1 by omega, List.take_succ_cons, List.find?_cons,
        ← ih (fun t' h => hb t' (by simp [h])) n]
      rw [List.cons_append, List.take_succ_cons, List.find?_cons, List.cons_append, List.take_succ_cons,
        List.find?_cons, hz, List.nil_append]

end Roots

/-! ### The agreement -/

section Agreement
variable {fuel : ℕ} {m : Mem} {r x : ℕ} {ts : List ℕ} {sig : ℕ → UInt8}

theorem finds_rsdt (he : EncodesRsdt m r ts) (ht : Tables m ts) (hf : 256 ≤ fuel) :
    Finds m ts sig (acpiFindSdt fuel m ⟨r, x, false⟩ sig) := by
  rw [acpiFindSdt_eq_scan, entries_rsdt he, scan_eq hf fun t h _ => ht.accepted t h, Finds]
  cases ts.find? (HasSig m sig ·) with
  | some t => rfl
  | none => exact ⟨_, rfl⟩

theorem physToHigherHalfData_ne {t : ℕ} (h : t < 2 ^ 32) (h0 : t ≠ 0) :
    physToHigherHalfData 0 ≠ physToHigherHalfData t := by
  unfold physToHigherHalfData higherHalfData
  omega

theorem finds_half (ht : Tables m ts) (hf : 256 ≤ fuel) (hz : ¬ HasSig m sig 0) :
    Finds m ts sig (scan fuel m sig ((ts.flatMap halves).take ts.length)) ↔
      ((∃ t ∈ ts, HasSig m sig t) → ∃ t ∈ ts.take ((ts.length + 1) / 2), HasSig m sig t) := by
  have hacc : ∀ t ∈ (ts.flatMap halves).take ts.length, HasSig m sig t →
      ∃ fuel, acpiVerifySdtChecksum fuel m t = .ok true := by
    intro t h hs
    rcases mem_halves ht.below (List.mem_of_mem_take h) with h | h
    · exact ht.accepted _ h
    · exact absurd (h ▸ hs) hz
  rw [scan_eq hf hacc, find?_halves (decide_eq_false hz) ht.below, Finds]
  have hsplit : ts.find? (HasSig m sig ·) =
      ((ts.take ((ts.length + 1) / 2)).find? (HasSig m sig ·)).or
        ((ts.drop ((ts.length + 1) / 2)).find? (HasSig m sig ·)) := by
    rw [← List.find?_append, List.take_append_drop]
  cases hh : (ts.take ((ts.length + 1) / 2)).find? (HasSig m sig ·) with
  | some t =>
    rw [hsplit, hh, Option.some_or]
    refine ⟨fun _ _ => ⟨t, List.mem_of_find?_eq_some hh, ?_⟩, fun _ => rfl⟩
    simpa using List.find?_some hh
  | none =>
    have hno : ¬ ∃ t ∈ ts.take ((ts.length + 1) / 2), HasSig m sig t := by
      rintro ⟨t, h1, h2⟩
      exact absurd h2 (by simpa using List.find?_eq_none.mp hh t h1)
    cases hts : ts.find? (HasSig m sig ·) with
    | some t =>
      have hsig : HasSig m sig t := by simpa using List.find?_some hts
      exact ⟨fun h => (by cases h), fun h => absurd (h ⟨t, List.mem_of_find?_eq_some hts, hsig⟩) hno⟩
    | none =>
      refine ⟨fun _ => ?_, fun _ => ⟨_, rfl⟩⟩
      rintro ⟨t, h1, h2⟩
      exact absurd h2 (by simpa using List.find?_eq_none.mp hts t h1)

theorem finds_null (ht : Tables m ts) (hf : 256 ≤ fuel) (hz : HasSig m sig 0) {t : ℕ} {l : List ℕ}
    (hs : ¬ HasSig m sig t) :
    Finds m ts sig (scan fuel m sig (t :: 0 :: l)) ↔
      (∀ t ∈ ts, ¬ HasSig m sig t) ∧ Rejected m 0 := by
  rw [scan_cons, if_neg hs, scan_cons, if_pos hz, acpiVerifySdtChecksum_eq hf, Rejected, Finds]
  cases hts : ts.find? (HasSig m sig ·) with
  | some t' =>
    have hmem := List.mem_of_find?_eq_some hts
    have hsig : HasSig m sig t' := by simpa using List.find?_some hts
    refine iff_of_false (fun h => ?_) fun h => h.1 t' hmem hsig
    split_ifs at h
    · cases h
    · exact physToHigherHalfData_ne (ht.below _ hmem) (ht.ne_zero _ hmem) (Except.ok.inj h)
    · cases h
  | none =>
    have hno : ∀ t ∈ ts, ¬ HasSig m sig t := fun t h => by simpa using List.find?_eq_none.mp hts t h
    split_ifs with h1 h2
    · refine iff_of_false ?_ fun h => by omega
      rintro ⟨msg, h⟩
      cases h
    · refine iff_of_false ?_ fun h => h.2.2 h2
      rintro ⟨msg, h⟩
      cases h
    · exact iff_of_true ⟨_, rfl⟩ ⟨hno, by omega, h2⟩

/-- **The agreement of the two root tables.** Through the RSDT the search comes to what it should; through
the XSDT exactly if the first half of the list suffices. -/
theorem finds_iff (he : EncodesRsdt m r ts) (hx : EncodesXsdt m x ts) (ht : Tables m ts)
    (hf : 256 ≤ fuel) : Finds m ts sig (acpiFindSdt fuel m ⟨r, x, false⟩ sig) ∧
      (Finds m ts sig (acpiFindSdt fuel m ⟨r, x, true⟩ sig) ↔ HalfSuffices m ts sig) := by
  refine ⟨finds_rsdt he ht hf, ?_⟩
  rw [acpiFindSdt_eq_scan, entries_xsdt hx]
  by_cases hz : HasSig m sig 0
  swap
  · rw [finds_half ht hf hz]
    exact ⟨fun h => ⟨h, fun h' => absurd h' hz⟩, fun h => h.half⟩
  -- the first two words are the first table and NULL
  match ts, ht with
  | [], ht => exact iff_of_true ⟨_, rfl⟩ ⟨by simp, fun _ => Or.inl (by simp)⟩
  | [t], ht =>
    have hacc : ∀ t' ∈ [t], HasSig m sig t' → _ := fun t' h _ => ht.accepted t' h
    have hscan := scan_eq hf hacc
    have hwords : ([t].flatMap halves).take [t].length = [t] := by
      rw [List.flatMap_singleton, halves_of_lt (ht.below t (by simp))]
      rfl
    refine iff_of_true ?_ ⟨by simp, fun _ => Or.inl (by simp)⟩
    rw [hwords, hscan, Finds]
    cases [t].find? (HasSig m sig ·) with
    | some t => rfl
    | none => exact ⟨_, rfl⟩
  | t :: t' :: l, ht =>
    have hlist : ((t :: t' :: l).flatMap halves).take (t :: t' :: l).length =
        t :: 0 :: ((t' :: l).flatMap halves).take l.length := by
      rw [List.flatMap_cons, halves_of_lt (ht.below t (by simp))]
      rfl
    rw [hlist]
    by_cases hs : HasSig m sig t
    · have hfirst : Finds m (t :: t' :: l) sig (.ok (physToHigherHalfData t)) := by
        rw [Finds, List.find?_cons, decide_eq_true hs]
      rw [scan_cons, if_pos hs, accepted_of_exists hf (ht.accepted t (by simp))]
      refine iff_of_true hfirst ⟨fun _ => ⟨t, ?_, hs⟩, fun _ => Or.inr (Or.inl ⟨t, by simp, hs⟩)⟩
      rw [List.mem_take_iff_getElem]
      exact ⟨0, by simp, rfl⟩
    · rw [finds_null ht hf hz hs]
      constructor
      · rintro ⟨h1, h2⟩
        exact ⟨fun ⟨u, h3, h4⟩ => absurd h4 (h1 u h3), fun _ => Or.inr (Or.inr ⟨h1, h2⟩)⟩
      · intro h
        rcases h.null hz with h1 | ⟨u, h1, h2⟩ | h1
        · simp at h1
        · simp only [List.take_succ_cons, List.take_zero, List.mem_singleton] at h1
          exact absurd (h1 ▸ h2) hs
        · exact h1

end Agreement

/-- A memory with two tables, `FACP` at `0x1000` and `APIC` at `0x2000`, listed in this order by an
XSDT at `0x3000` and an RSDT at `0x4000`. -/
def twoTables : Mem :=
  [(4, 0x1000, 0x50434146), (4, 0x1004, 36), (1, 0x1009, 194),
    (4, 0x2000, 0x43495041), (4, 0x2004, 36), (1, 0x2009, 191),
    (4, 0x3004, 52), (8, 0x3024, 0x1000), (8, 0x302C, 0x2000),
    (4, 0x4004, 44), (4, 0x4024, 0x1000), (4, 0x4028, 0x2000)].foldl
      (fun m (w, a, v) => store m w a v) fun _ => 0

/-- The bytes of `"FACP"`. -/
def facpSig (i : ℕ) : UInt8 := [0x46, 0x41, 0x43, 0x50].getD i 0

/-- The bytes of `"APIC"`. -/
def apicSig (i : ℕ) : UInt8 := [0x41, 0x50, 0x49, 0x43].getD i 0

theorem twoTables_rsdt : EncodesRsdt twoTables 0x4000 [0x1000, 0x2000] :=
  ⟨by decide +kernel, by decide +kernel⟩

theorem twoTables_xsdt : EncodesXsdt twoTables 0x3000 [0x1000, 0x2000] :=
  ⟨by decide +kernel, by decide +kernel⟩

theorem twoTables_tables : Tables twoTables [0x1000, 0x2000] where
  ne_zero := by decide
  below := by decide
  accepted t ht := by
    refine ⟨64, ?_⟩
    simp only [List.mem_cons, List.not_mem_nil, or_false] at ht
    rcases ht with rfl | rfl <;> decide +kernel

theorem finds_iff_facp : Finds twoTables [0x1000, 0x2000] facpSig
    (acpiFindSdt 256 twoTables ⟨0x4000, 0x3000, true⟩ facpSig) :=
  (finds_iff twoTables_rsdt twoTables_xsdt twoTables_tables le_rfl).2.mpr
    ⟨fun _ => ⟨0x1000, by simp, by decide +kernel⟩, fun h => absurd h (by decide +kernel)⟩

/-- The second of two tables is found through the RSDT and missed through the XSDT. -/
theorem apic_missed_in_xsdt : acpiFindSdt 256 twoTables ⟨0x4000, 0x3000, false⟩ apicSig =
      .ok (physToHigherHalfData 0x2000) ∧
    ¬ Finds twoTables [0x1000, 0x2000] apicSig
      (acpiFindSdt 256 twoTables ⟨0x4000, 0x3000, true⟩ apicSig) := by
  have hfind : [0x1000, 0x2000].find? (HasSig twoTables apicSig ·) = some 0x2000 := by decide +kernel
  have hx : acpiFindSdt 256 twoTables ⟨0x4000, 0x3000, true⟩ apicSig = .error (.panic .sdtNotFound) := by
    decide +kernel
  refine ⟨by decide +kernel, fun h => ?_⟩
  rw [Finds, hfind, hx] at h
  cases h

/-! ### The checksum -/

/-- The sum of the bytes of the table. -/
def tableSum (m : Mem) (sdt : ℕ) : ℕ := ∑ i ∈ Finset.range (sdtLen m sdt), (m (sdt + i)).toNat

/-- **What `_acpi_verify_sdt_checksum` should come to**: it ends, and accepts the table if the sum of
its bytes is 0 modulo 256 and panics otherwise. -/
def ChecksumDecides (m : Mem) (sdt : ℕ) : Prop :=
  ∃ fuel₀, ∀ fuel, fuel₀ ≤ fuel →
    if tableSum m sdt % 256 = 0 then acpiVerifySdtChecksum fuel m sdt = .ok true
    else ∃ msg, acpiVerifySdtChecksum fuel m sdt = .error (.panic msg)

theorem toNat_byteSum (m : Mem) (sdt : ℕ) : ∀ n i : ℕ,
    (byteSum m sdt n i).toNat = (∑ j ∈ Finset.range n, (m (sdt + (i + j))).toNat) % 256
  | 0, _ => rfl
  | n + 1, i => by
    rw [byteSum, UInt8.toNat_add, toNat_byteSum m sdt n (i + 1), Finset.sum_range_succ',
      Finset.sum_congr rfl fun j _ => by rw [show i + 1 + j = i + (j + 1) by omega]]
    simp only [Nat.add_zero]
    omega

theorem byteSum_eq_zero_iff (m : Mem) (sdt : ℕ) :
    byteSum m sdt (sdtLen m sdt) 0 = 0 ↔ tableSum m sdt % 256 = 0 := by
  rw [← UInt8.toNat_inj, toNat_byteSum]
  simp only [Nat.zero_add, tableSum]
  rfl

theorem sum_of_checksum {fuel : ℕ} {m : Mem} {sdt : ℕ} {b : Bool}
    (h : acpiVerifySdtChecksum fuel m sdt = .ok b) : tableSum m sdt % 256 = 0 := by
  have hb : b = true := by
    rw [acpiVerifySdtChecksum] at h
    cases hloop : checksumLoop m sdt fuel 0 0 with
    | none =>
      rw [hloop] at h
      cases h
    | some cs =>
      simp only [hloop] at h
      split_ifs at h
      exact (Except.ok.inj h).symm
  have hmore := accepted_of_exists le_rfl ⟨fuel, hb ▸ h⟩
  rw [acpiVerifySdtChecksum_eq le_rfl] at hmore
  split_ifs at hmore with hlen hsum
  exact (byteSum_eq_zero_iff m sdt).mp hsum

theorem not_decides_of_long {m : Mem} {sdt : ℕ} (hlen : 256 ≤ sdtLen m sdt) :
    (∀ fuel, acpiVerifySdtChecksum fuel m sdt = .error .outOfFuel) ∧ ¬ ChecksumDecides m sdt := by
  have hloop : ∀ fuel, acpiVerifySdtChecksum fuel m sdt = .error .outOfFuel := by
    intro fuel
    rw [acpiVerifySdtChecksum, checksumLoop_none hlen]
  refine ⟨hloop, ?_⟩
  rintro ⟨fuel₀, h⟩
  have h1 := h fuel₀ le_rfl
  rw [hloop] at h1
  by_cases h0 : tableSum m sdt % 256 = 0
  · rw [if_pos h0] at h1
    cases h1
  · rw [if_neg h0] at h1
    obtain ⟨msg, h1⟩ := h1
    cases h1

/-- **The checksum law** holds exactly of the tables of at most 255 bytes. -/
theorem checksum_decides_iff (m : Mem) (sdt : ℕ) : ChecksumDecides m sdt ↔ sdtLen m sdt ≤ 255 := by
  constructor
  · intro h
    by_contra hlen
    exact (not_decides_of_long (by omega)).2 h
  · intro hlen
    refine ⟨256, fun fuel hf => ?_⟩
    have hends := acpiVerifySdtChecksum_eq hf m sdt
    rw [if_neg (by omega : ¬ 256 ≤ sdtLen m sdt)] at hends
    rw [hends]
    by_cases h0 : tableSum m sdt % 256 = 0
    · rw [if_pos h0, if_pos ((byteSum_eq_zero_iff m sdt).mpr h0)]
    · rw [if_neg h0, if_neg fun h => h0 ((byteSum_eq_zero_iff m sdt).mp h)]
      exact ⟨_, rfl⟩

/-- A table of 256 bytes whose bytes sum up to 256. -/
def longTable : Mem := fun a => if a = 5 then 1 else if a = 9 then 255 else 0

/-- **The checksum of a table of 256 bytes is never computed.** -/
theorem checksum_256 : sdtLen longTable 0 = 256 ∧ tableSum longTable 0 % 256 = 0 ∧
    (∀ fuel, acpiVerifySdtChecksum fuel longTable 0 = .error .outOfFuel) ∧
      ¬ ChecksumDecides longTable 0 := by
  have hlen : sdtLen longTable 0 = 256 := by decide
  have hsum : tableSum longTable 0 % 256 = 0 := by
    rw [tableSum, hlen]
    decide +kernel
  exact ⟨hlen, hsum, not_decides_of_long hlen.ge⟩

end FusionCore.Acpi.SdtSpec
