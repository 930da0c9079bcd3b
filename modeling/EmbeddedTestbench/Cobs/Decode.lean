import EmbeddedTestbench.Cobs.Encode

/-!
# `cobs_decode` (`cobs.c`)

The decoder copies the bytes of a run one by one and puts a zero behind it, except behind a full run
and at the end. What is wrong with the input is noted in the status, and the rest of it is still
decoded where that is possible.

A string is taken apart into the groups that its codes make (`Stuffing.exists_groups`), whether it
is valid or not, and the loop is followed from group to group.

Headlines:
* **`ReadsGroups.whole`**, **`decodeLoop_readsGroups`**: what the loop does with any string, in
  whatever space there is.
* **`cobsDecode_stuffs`**: a valid string is decoded, cut off where the space ends.
* **`cobsDecode_status`**: what the status says of any string.
* **`cobsDecode_bounds`**: no byte is written behind the length that is returned.
* **`cobsDecode_truncated`**: the start of a valid string gives the start of what it stands for.
-/

namespace EmbeddedTestbench.Cobs

open EmbeddedTestbench.Lib

/-! ## Definitions -/

/-- The bits of `cobs_decode_status`. `cobsr_decode_status` has all but the last. -/
structure DecodeStatus where
  nullPointer : Bool
  outBufferOverflow : Bool
  zeroByteInInput : Bool
  inputTooShort : Bool
  deriving DecidableEq, Repr

/-- `COBS_DECODE_OK`. -/
def decodeOk : DecodeStatus := ⟨false, false, false, false⟩

/-- `cobs_decode_result`. -/
structure DecodeResult where
  outLen : Nat
  status : DecodeStatus
  deriving DecidableEq, Repr

/-- The destination, the place of the next byte in it, and the status. -/
structure DecodeState where
  dst : List UInt8
  dstWrite : Nat
  status : DecodeStatus
  deriving DecidableEq, Repr

/-- Before the loop. -/
def DecodeState.init (dst : List UInt8) : DecodeState := ⟨dst, 0, decodeOk⟩

/-- `*dst_write_ptr++ = b`. -/
def DecodeState.writeByte (s : DecodeState) (b : UInt8) : DecodeState :=
  { s with dst := s.dst.set s.dstWrite b, dstWrite := s.dstWrite + 1 }

/-- `result.status |= OUT_BUFFER_OVERFLOW`. -/
def DecodeState.overflow (s : DecodeState) : DecodeState :=
  { s with status := { s.status with outBufferOverflow := true } }

/-- `result.status |= ZERO_BYTE_IN_INPUT`. -/
def DecodeState.zeroByte (s : DecodeState) : DecodeState :=
  { s with status := { s.status with zeroByteInInput := true } }

/-- `result.status |= INPUT_TOO_SHORT`. -/
def DecodeState.tooShort (s : DecodeState) : DecodeState :=
  { s with status := { s.status with inputTooShort := true } }

/-- The `for` over `i`, which copies that many bytes. -/
def copyBytes : Nat → List UInt8 → DecodeState → List UInt8 × DecodeState
  | i + 1, srcByte :: src, s =>
    let s := if srcByte = 0 then s.zeroByte else s
    copyBytes i src (s.writeByte srcByte)
  | _, src, s => (src, s)

/-- The `for (;;)`, which reads a code and its run in each turn; `fuel` bounds the turns. -/
def decodeLoop (dstBufLen : Nat) : Nat → List UInt8 → DecodeState → DecodeState
  | fuel + 1, lenCode :: src, s =>
    if lenCode = 0 then s.zeroByte
    else
      let lenCode := lenCode.toNat - 1
      -- against the input that is left
      let s := if src.length < lenCode then s.tooShort else s
      let lenCode := min lenCode src.length
      -- against the output that is left
      let remaining := dstBufLen - s.dstWrite
      let s := if remaining < lenCode then s.overflow else s
      let lenCode := min lenCode remaining
      let (src, s) := copyBytes lenCode src s
      if src = [] then s
      else if lenCode = 0xFE then decodeLoop dstBufLen fuel src s
      else if dstBufLen ≤ s.dstWrite then s.overflow
      else decodeLoop dstBufLen fuel src (s.writeByte 0)
  | _, _, s => s

/-- `cobs_decode`; `none` is `NULL`, and `src_len` is the length of the source. -/
def cobsDecode (dst : Option (List UInt8)) (dstBufLen : Nat) (src : Option (List UInt8)) :
    DecodeResult × Option (List UInt8) :=
  match dst, src with
  | some dst, some src =>
    let s := decodeLoop dstBufLen src.length src (.init dst)
    (⟨s.dstWrite, s.status⟩, some s.dst)
  | dst, _ => (⟨0, ⟨true, false, false, false⟩⟩, dst)

/-! ## The output -/

/-- `out` is written and nothing else, and the status has no more than the input gave reason for. -/
structure DecodeState.Wrote (dst : List UInt8) (dstBufLen : Nat) (out : List UInt8)
    (zero short : Bool) (s : DecodeState) : Prop where
  fits : out.length ≤ dstBufLen
  write : s.dstWrite = out.length
  dst : s.dst = out ++ dst.drop out.length
  status : s.status = ⟨false, false, zero, short⟩

/-- The space ended within `out`, which is noted. -/
structure DecodeState.Filled (dst : List UInt8) (dstBufLen : Nat) (out : List UInt8)
    (zero short : Bool) (s : DecodeState) : Prop where
  exceeds : dstBufLen < out.length
  write : s.dstWrite = dstBufLen
  dst : s.dst = out.take dstBufLen ++ dst.drop dstBufLen
  nullPointer : s.status.nullPointer = false
  overflow : s.status.outBufferOverflow = true
  zero : s.status.zeroByteInInput = true → zero = true
  short : s.status.inputTooShort = true → short = true

variable {dst : List UInt8} {dstBufLen : Nat} {out run src : List UInt8} {zero short : Bool}
  {s : DecodeState}

theorem wrote_init (dst : List UInt8) (dstBufLen : Nat) :
    (DecodeState.init dst).Wrote dst dstBufLen [] false false :=
  ⟨Nat.zero_le _, rfl, rfl, rfl⟩

theorem DecodeState.Wrote.zeroByte (h : s.Wrote dst dstBufLen out zero short) :
    s.zeroByte.Wrote dst dstBufLen out true short :=
  ⟨h.fits, h.write, h.dst, by rw [DecodeState.zeroByte, h.status]⟩

theorem DecodeState.Wrote.tooShort (h : s.Wrote dst dstBufLen out zero short) :
    s.tooShort.Wrote dst dstBufLen out zero true :=
  ⟨h.fits, h.write, h.dst, by rw [DecodeState.tooShort, h.status]⟩

theorem DecodeState.Wrote.writeByte (h : s.Wrote dst dstBufLen out zero short)
    (hlen : dstBufLen ≤ dst.length) (hroom : out.length < dstBufLen) (b : UInt8) :
    (s.writeByte b).Wrote dst dstBufLen (out ++ [b]) zero short := by
  have hlength : (out ++ [b]).length = out.length + 1 := by
    rw [List.length_append, List.length_singleton]
  refine ⟨by omega, ?_, ?_, h.status⟩
  · rw [hlength, ← h.write]
    rfl
  · show s.dst.set s.dstWrite b = _
    rw [h.dst, h.write, set_append_drop out (by omega), hlength, List.append_assoc]
    rfl

/-- The space ended with `out`, and more was to come. -/
theorem DecodeState.Wrote.overflow (h : s.Wrote dst dstBufLen out zero short)
    (hfull : out.length = dstBufLen) {more : List UInt8} (hmore : more ≠ []) (zero' short' : Bool) :
    s.overflow.Filled dst dstBufLen (out ++ more) (zero || zero') (short || short') := by
  have hpos := List.length_pos_of_ne_nil hmore
  refine ⟨by rw [List.length_append]; omega, h.write.trans hfull, ?_, ?_, rfl, ?_, ?_⟩
  · rw [← hfull, List.take_left]
    exact h.dst
  · rw [DecodeState.overflow, h.status]
  · intro hz
    have hzero : zero = true := (congrArg DecodeStatus.zeroByteInInput h.status).symm.trans hz
    rw [hzero, Bool.true_or]
  · intro ht
    have hshort : short = true := (congrArg DecodeStatus.inputTooShort h.status).symm.trans ht
    rw [hshort, Bool.true_or]

/-- Filled by a part of the output is filled by all of it. -/
theorem DecodeState.Filled.append (h : s.Filled dst dstBufLen out zero short) (more : List UInt8)
    (zero' short' : Bool) :
    s.Filled dst dstBufLen (out ++ more) (zero || zero') (short || short') where
  exceeds := Nat.lt_of_lt_of_le h.exceeds (by rw [List.length_append]; exact Nat.le_add_right _ _)
  write := h.write
  dst := by rw [h.dst, List.take_append_of_le_length (Nat.le_of_lt h.exceeds)]
  nullPointer := h.nullPointer
  overflow := h.overflow
  zero := fun hz => by rw [h.zero hz, Bool.true_or]
  short := fun ht => by rw [h.short ht, Bool.true_or]

theorem decide_mem_append (x y : List UInt8) :
    (decide (0 ∈ x) || decide (0 ∈ y)) = decide (0 ∈ x ++ y) := by
  rw [← Bool.decide_or, decide_eq_decide, List.mem_append]

/-- **Copying bytes** that there is space for. -/
theorem copyBytes_spec (hlen : dstBufLen ≤ dst.length) : ∀ (k : Nat) (src : List UInt8)
    {out : List UInt8} {zero : Bool} {s : DecodeState}, s.Wrote dst dstBufLen out zero short → k ≤ src.length →
    out.length + k ≤ dstBufLen → (copyBytes k src s).1 = src.drop k ∧
      (copyBytes k src s).2.Wrote dst dstBufLen (out ++ src.take k)
        (zero || decide (0 ∈ src.take k)) short
  | 0, src, out, zero, s, h, _, _ => by
    rw [copyBytes, List.take_zero, List.append_nil]
    · exact ⟨rfl, by simpa using h⟩
    · exact fun i _ _ hi => absurd hi (Nat.succ_ne_zero i).symm
  | k + 1, [], _, _, _, _, hk, _ => absurd hk (Nat.not_succ_le_zero k)
  | k + 1, srcByte :: src, out, zero, s, h, hk, hroom => by
    rw [List.length_cons] at hk
    have hnext : (if srcByte = 0 then s.zeroByte else s).Wrote dst dstBufLen out
        (zero || decide (srcByte = 0)) short := by
      split_ifs with hzero
      · rw [decide_eq_true hzero, Bool.or_true]
        exact h.zeroByte
      · rw [decide_eq_false hzero, Bool.or_false]
        exact h
    have hwritten := hnext.writeByte hlen (by omega) srcByte
    obtain ⟨hsrc, hdst⟩ := copyBytes_spec hlen k src hwritten (Nat.le_of_succ_le_succ hk)
      (by rw [List.length_append, List.length_singleton]; omega)
    refine ⟨hsrc, ?_⟩
    have hmem : decide (0 ∈ srcByte :: src.take k)
        = (decide (srcByte = 0) || decide (0 ∈ src.take k)) := by
      rw [← Bool.decide_or, decide_eq_decide, List.mem_cons, eq_comm]
    rw [List.take_succ_cons, hmem, ← Bool.or_assoc, List.append_cons]
    exact hdst

theorem DecodeState.Filled.mono {zero' : Bool} (h : s.Filled dst dstBufLen out zero short)
    (hzero : zero = true → zero' = true) : s.Filled dst dstBufLen out zero' short :=
  ⟨h.exceeds, h.write, h.dst, h.nullPointer, h.overflow, fun hz => hzero (h.zero hz), h.short⟩

theorem DecodeState.Filled.status (h : s.Filled dst dstBufLen out false false) :
    s.status = ⟨false, true, false, false⟩ := by
  have hzero : s.status.zeroByteInInput = false :=
    Bool.eq_false_iff.mpr fun hz => Bool.false_ne_true (h.zero hz)
  have hshort : s.status.inputTooShort = false :=
    Bool.eq_false_iff.mpr fun ht => Bool.false_ne_true (h.short ht)
  calc s.status = ⟨s.status.nullPointer, s.status.outBufferOverflow, s.status.zeroByteInInput,
        s.status.inputTooShort⟩ := rfl
    _ = ⟨false, true, false, false⟩ := by rw [h.nullPointer, h.overflow, hzero, hshort]

/-! ## The loop -/

/-- A group as the loop reads it. -/
theorem code_toNat {n : Nat} (hn : n ≤ 254) : (cobs.code n).toNat = n + 1 := by
  show (n + 1) % 256 = n + 1
  omega

theorem zero_notMem_group {run : List UInt8} (hrun : run.length ≤ 254) :
    decide (0 ∈ cobs.group run) = decide (0 ∈ run) := by
  have hcode : (0 : UInt8) ≠ cobs.code run.length := (cobs.code_ne _ hrun).symm
  rw [decide_eq_decide, Stuffing.group, List.mem_cons, or_iff_right hcode]

/-- The copying does not look at the status. -/
theorem copyBytes_overflow : ∀ (k : Nat) (src : List UInt8) (s : DecodeState),
    copyBytes k src s.overflow = ((copyBytes k src s).1, (copyBytes k src s).2.overflow)
  | 0, src, s => by
    rw [copyBytes, copyBytes] <;> exact fun i _ _ hi => absurd hi (Nat.succ_ne_zero i).symm
  | k + 1, [], s => rfl
  | k + 1, srcByte :: src, s => by
    have hzero : (if srcByte = 0 then s.overflow.zeroByte else s.overflow)
        = (if srcByte = 0 then s.zeroByte else s).overflow := by
      split_ifs <;> rfl
    rw [copyBytes, copyBytes, hzero]
    exact copyBytes_overflow k src ((if srcByte = 0 then s.zeroByte else s).writeByte srcByte)

/-- A copy within which the space ends. -/
theorem copyBytes_filled (hlen : dstBufLen ≤ dst.length)
    (h : s.Wrote dst dstBufLen out zero short) {k : Nat} (hk : k ≤ src.length)
    (hover : dstBufLen - s.dstWrite < k) :
    (copyBytes (dstBufLen - s.dstWrite) src s.overflow).1 = src.drop (dstBufLen - s.dstWrite) ∧
      (copyBytes (dstBufLen - s.dstWrite) src s.overflow).2.Filled dst dstBufLen
        (out ++ src.take k) (zero || decide (0 ∈ src.take k)) short := by
  have hfits := h.fits
  have hwrite := h.write
  obtain ⟨hsrc, hdst⟩ := copyBytes_spec hlen (dstBufLen - s.dstWrite) src h
    (by omega) (by omega)
  have hlength : (out ++ src.take (dstBufLen - s.dstWrite)).length = dstBufLen := by
    rw [List.length_append, List.length_take]
    omega
  have hsplit : src.take (dstBufLen - s.dstWrite) ++ (src.take k).drop (dstBufLen - s.dstWrite)
      = src.take k := by
    have htake : (src.take k).take (dstBufLen - s.dstWrite) = src.take (dstBufLen - s.dstWrite) := by
      rw [List.take_take, Nat.min_eq_left (Nat.le_of_lt hover)]
    rw [← htake, List.take_append_drop]
  have hmore : (src.take k).drop (dstBufLen - s.dstWrite) ≠ [] := by
    rw [Ne, List.drop_eq_nil_iff, List.length_take]
    omega
  have hfilled := hdst.overflow hlength hmore
    (decide (0 ∈ (src.take k).drop (dstBufLen - s.dstWrite))) false
  rw [List.append_assoc, hsplit, Bool.or_assoc, decide_mem_append, hsplit, Bool.or_false] at hfilled
  rw [copyBytes_overflow]
  exact ⟨hsrc, hfilled⟩

theorem DecodeState.Filled.flag (h : s.Filled dst dstBufLen out zero short) :
    s.overflow.Filled dst dstBufLen out zero short :=
  ⟨h.exceeds, h.write, h.dst, h.nullPointer, rfl, h.zero, h.short⟩

/-- **A group with something behind it**: the loop goes on behind its run, or the space ends in
it. -/
theorem decodeLoop_group (hlen : dstBufLen ≤ dst.length)
    (h : s.Wrote dst dstBufLen out zero short) (hrun : run.length ≤ 254) (hsrc : src ≠ [])
    (fuel : Nat) :
    (∃ s', s'.Wrote dst dstBufLen (out ++ cobs.closed run) (zero || decide (0 ∈ run)) short ∧
      decodeLoop dstBufLen (fuel + 1) (cobs.group run ++ src) s
        = decodeLoop dstBufLen fuel src s') ∨
    (decodeLoop dstBufLen (fuel + 1) (cobs.group run ++ src) s).Filled dst dstBufLen
      (out ++ cobs.closed run) (zero || decide (0 ∈ run)) short := by
  have hcode : cobs.code run.length ≠ 0 := cobs.code_ne _ hrun
  have hlength : (run ++ src).length = run.length + src.length := List.length_append
  have hin : run.length ≤ (run ++ src).length := by omega
  have htake : (run ++ src).take run.length = run := List.take_left
  have hfits := h.fits
  have hwrite := h.write
  rw [Stuffing.group, List.cons_append, decodeLoop, if_neg hcode]
  simp only [code_toNat hrun, Nat.add_sub_cancel, if_neg (Nat.not_lt.mpr hin), Nat.min_eq_left hin]
  by_cases hover : dstBufLen - s.dstWrite < run.length
  · right
    obtain ⟨hrest, hfilled⟩ := copyBytes_filled hlen h hin hover
    have hmore : (run ++ src).drop (dstBufLen - s.dstWrite) ≠ [] := by
      rw [Ne, List.drop_eq_nil_iff]
      have := List.length_pos_of_ne_nil hsrc
      omega
    rw [htake] at hfilled
    simp only [if_pos hover, Nat.min_eq_right (Nat.le_of_lt hover), hrest, if_neg hmore]
    rw [if_neg (by omega), if_pos hfilled.write.ge, Stuffing.closed, ← List.append_assoc]
    have happend := hfilled.flag.append (if run.length < cobs.maxRun then [cobs.delimiter] else [])
      false false
    rwa [Bool.or_false, Bool.or_false] at happend
  · obtain ⟨hrest, hcopied⟩ := copyBytes_spec hlen run.length _ h hin (by omega)
    rw [htake] at hcopied
    rw [List.drop_left] at hrest
    simp only [if_neg hover, Nat.min_eq_left (Nat.not_lt.mp hover), hrest, if_neg hsrc]
    by_cases hlong : run.length = 254
    · have hclosed : cobs.closed run = run := by
        rw [Stuffing.closed, if_neg (show ¬ run.length < cobs.maxRun from hlong.not_lt),
          List.append_nil]
      rw [if_pos hlong, hclosed]
      exact Or.inl ⟨_, hcopied, rfl⟩
    · have hclosed : out ++ cobs.closed run = out ++ run ++ [0] := by
        have hshort : run.length < cobs.maxRun := Nat.lt_of_le_of_ne hrun hlong
        rw [Stuffing.closed, if_pos hshort, List.append_assoc]
        rfl
      rw [if_neg hlong, hclosed]
      by_cases hfull : dstBufLen ≤ (copyBytes run.length (run ++ src) s).2.dstWrite
      · right
        have hfills : (out ++ run).length = dstBufLen :=
          Nat.le_antisymm hcopied.fits (hcopied.write ▸ hfull)
        rw [if_pos hfull]
        have hfilled := hcopied.overflow hfills (List.cons_ne_nil 0 []) false false
        rwa [Bool.or_false, Bool.or_false] at hfilled
      · left
        rw [if_neg hfull]
        exact ⟨_, hcopied.writeByte hlen (hcopied.write ▸ Nat.not_le.mp hfull) 0, rfl⟩

/-- The last group, which may lack bytes of its run. -/
theorem decodeLoop_last (hlen : dstBufLen ≤ dst.length)
    (h : s.Wrote dst dstBufLen out zero short) {a : UInt8} {x : List UInt8} (ha : a ≠ 0)
    (hx : x.length ≤ cobs.size a) (fuel : Nat) :
    (decodeLoop dstBufLen (fuel + 1) (a :: x) s).Wrote dst dstBufLen (out ++ x)
      (zero || decide (0 ∈ x)) (short || decide (x.length < cobs.size a)) ∨
    (decodeLoop dstBufLen (fuel + 1) (a :: x) s).Filled dst dstBufLen (out ++ x)
      (zero || decide (0 ∈ x)) (short || decide (x.length < cobs.size a)) := by
  have hnext : (if x.length < cobs.size a then s.tooShort else s).Wrote dst dstBufLen out zero
      (short || decide (x.length < cobs.size a)) := by
    split_ifs with hshort
    · rw [decide_eq_true hshort, Bool.or_true]
      exact h.tooShort
    · rw [decide_eq_false hshort, Bool.or_false]
      exact h
  have hfits := h.fits
  have hsize : a.toNat - 1 = cobs.size a := rfl
  rw [decodeLoop, if_neg ha]
  simp only [hsize, Nat.min_eq_right hx]
  generalize (if x.length < cobs.size a then s.tooShort else s) = s at hnext
  have hwrite := hnext.write
  by_cases hover : dstBufLen - s.dstWrite < x.length
  · right
    obtain ⟨hrest, hfilled⟩ := copyBytes_filled hlen hnext (Nat.le_refl x.length) hover
    have hmore : x.drop (dstBufLen - s.dstWrite) ≠ [] := by
      rw [Ne, List.drop_eq_nil_iff]
      omega
    have hmax : x.length ≤ 254 := Nat.le_trans hx (cobs.size_le a ha)
    rw [List.take_length] at hfilled
    simp only [if_pos hover, Nat.min_eq_right (Nat.le_of_lt hover), hrest, if_neg hmore]
    rw [if_neg (by omega), if_pos hfilled.write.ge]
    exact hfilled.flag
  · left
    obtain ⟨hrest, hcopied⟩ := copyBytes_spec hlen x.length x hnext (Nat.le_refl _) (by omega)
    rw [List.take_length] at hcopied
    rw [List.drop_length] at hrest
    simp only [if_neg hover, Nat.min_eq_left (Nat.not_lt.mp hover), hrest]
    exact hcopied

/-- What a loop does with a group that has something behind it, and with the last one, `w`, that
stands for `last`. -/
structure ReadsGroups (dst : List UInt8) (dstBufLen : Nat)
    (loop : Nat → List UInt8 → DecodeState → DecodeState) (w last : List UInt8) (short : Bool) :
    Prop where
  group : ∀ {run src out : List UInt8} {zero : Bool} {s : DecodeState} (fuel : Nat),
    s.Wrote dst dstBufLen out zero false → run.length ≤ 254 → src ≠ [] →
    (∃ s', s'.Wrote dst dstBufLen (out ++ cobs.closed run) (zero || decide (0 ∈ run)) false ∧
      loop (fuel + 1) (cobs.group run ++ src) s = loop fuel src s') ∨
    (loop (fuel + 1) (cobs.group run ++ src) s).Filled dst dstBufLen (out ++ cobs.closed run)
      (zero || decide (0 ∈ run ++ src)) false
  last : ∀ {out : List UInt8} {zero : Bool} {s : DecodeState} (fuel : Nat),
    s.Wrote dst dstBufLen out zero false →
    (loop (fuel + 1) w s).Wrote dst dstBufLen (out ++ last) (zero || decide (0 ∈ w)) short ∨
    (loop (fuel + 1) w s).Filled dst dstBufLen (out ++ last) (zero || decide (0 ∈ w)) short

/-- **From group to group**: `init` are the runs before the last group. -/
theorem ReadsGroups.whole {loop : Nat → List UInt8 → DecodeState → DecodeState}
    {w last : List UInt8} (hw : w ≠ []) (hloop : ReadsGroups dst dstBufLen loop w last short) :
    ∀ {init : List (List UInt8)} {out : List UInt8} {zero : Bool} {s : DecodeState} (fuel : Nat),
    s.Wrote dst dstBufLen out zero false → (∀ run ∈ init, run.length ≤ 254) →
    (cobs.stuffed init ++ w).length ≤ fuel →
    let s' := loop fuel (cobs.stuffed init ++ w) s
    let out' := out ++ (init.flatMap cobs.closed ++ last)
    let zero' := zero || decide (0 ∈ cobs.stuffed init ++ w)
    s'.Wrote dst dstBufLen out' zero' short ∨ s'.Filled dst dstBufLen out' zero' short
  | [], _, _, _, 0, _, _, hfuel => absurd (List.eq_nil_of_length_eq_zero (Nat.le_zero.mp hfuel)) hw
  | [], _, _, _, fuel + 1, h, _, _ => hloop.last fuel h
  | run :: init, out, zero, s, fuel, h, hinit, hfuel => by
    obtain ⟨hrun, hinit⟩ := List.forall_mem_cons.mp hinit
    have hsrc : cobs.stuffed init ++ w ≠ [] := List.append_ne_nil_of_right_ne_nil _ hw
    have hgroup : cobs.stuffed (run :: init) ++ w = cobs.group run ++ (cobs.stuffed init ++ w) := by
      rw [Stuffing.stuffed, List.flatMap_cons, List.append_assoc, ← Stuffing.stuffed]
    have hzero : decide (0 ∈ cobs.group run ++ (cobs.stuffed init ++ w))
        = (decide (0 ∈ run) || decide (0 ∈ cobs.stuffed init ++ w)) := by
      rw [← zero_notMem_group hrun, decide_mem_append]
    have hout : out ++ ((run :: init).flatMap cobs.closed ++ last)
        = out ++ cobs.closed run ++ (init.flatMap cobs.closed ++ last) := by
      rw [List.flatMap_cons, List.append_assoc, List.append_assoc]
    rw [hgroup] at hfuel ⊢
    rw [hzero, hout, ← Bool.or_assoc]
    cases fuel with
    | zero => exact absurd hfuel (Nat.not_succ_le_zero _)
    | succ fuel =>
      have hfuel' : (cobs.stuffed init ++ w).length ≤ fuel := by
        rw [Stuffing.group, List.cons_append, List.length_cons, List.length_append] at hfuel
        omega
      rcases hloop.group fuel h hrun hsrc with ⟨s', hs', heq⟩ | hfilled
      · rw [heq]
        exact ReadsGroups.whole hw hloop fuel hs' hinit hfuel'
      · right
        have happend := hfilled.append (init.flatMap cobs.closed ++ last) false short
        rwa [Bool.or_false, Bool.false_or, ← decide_mem_append, ← Bool.or_assoc] at happend

/-- **`cobs_decode` reads groups**, where the last one begins with zero or may lack bytes. -/
theorem decodeLoop_readsGroups (hlen : dstBufLen ≤ dst.length) {a : UInt8} {x : List UInt8}
    (hx : a ≠ 0 → x.length ≤ cobs.size a) :
    ReadsGroups dst dstBufLen (decodeLoop dstBufLen) (a :: x) (if a = 0 then [] else x)
      (decide (a ≠ 0 ∧ x.length < cobs.size a)) where
  group fuel h hrun hsrc := by
    refine (decodeLoop_group hlen h hrun hsrc fuel).imp_right fun hfilled => hfilled.mono fun hz => ?_
    rw [Bool.or_eq_true, decide_eq_true_iff] at hz ⊢
    exact hz.imp_right (List.mem_append_left _)
  last {out zero s} fuel h := by
    by_cases ha : a = 0
    · left
      subst ha
      have hmem : decide ((0 : UInt8) ∈ 0 :: x) = true := decide_eq_true List.mem_cons_self
      rw [hmem, Bool.or_true, decide_eq_false fun h => h.1 rfl, if_pos rfl, List.append_nil,
        decodeLoop, if_pos rfl]
      exact h.zeroByte
    · have hmem : decide ((0 : UInt8) ∈ a :: x) = decide (0 ∈ x) := by
        rw [decide_eq_decide, List.mem_cons, or_iff_right (Ne.symm ha)]
      have hshort : decide (a ≠ 0 ∧ x.length < cobs.size a) = decide (x.length < cobs.size a) := by
        rw [decide_eq_decide, and_iff_right ha]
      have hlast := decodeLoop_last hlen h ha (hx ha) fuel
      rw [Bool.false_or] at hlast
      rw [if_neg ha, hmem, hshort]
      exact hlast

/-! ## The result -/

/-- `cobs_decode` on a string taken apart into groups. -/
theorem cobsDecode_groups (hlen : dstBufLen ≤ dst.length) {init : List (List UInt8)} {a : UInt8}
    {x : List UInt8} (hinit : ∀ run ∈ init, run.length ≤ 254)
    (hx : a ≠ 0 → x.length ≤ cobs.size a) : ∃ s : DecodeState,
    cobsDecode (some dst) dstBufLen (some (cobs.stuffed init ++ a :: x))
      = (⟨s.dstWrite, s.status⟩, some s.dst) ∧
    (s.Wrote dst dstBufLen (init.flatMap cobs.closed ++ if a = 0 then [] else x)
        (decide (0 ∈ cobs.stuffed init ++ a :: x)) (decide (a ≠ 0 ∧ x.length < cobs.size a)) ∨
      s.Filled dst dstBufLen (init.flatMap cobs.closed ++ if a = 0 then [] else x)
        (decide (0 ∈ cobs.stuffed init ++ a :: x)) (decide (a ≠ 0 ∧ x.length < cobs.size a))) := by
  have hloop := (decodeLoop_readsGroups hlen hx).whole (List.cons_ne_nil a x)
    (cobs.stuffed init ++ a :: x).length (wrote_init dst dstBufLen) hinit (Nat.le_refl _)
  dsimp only at hloop
  rw [Bool.false_or, List.nil_append] at hloop
  exact ⟨_, rfl, hloop⟩

/-- The output is shorter than the string it is read from. -/
theorem length_closed_le : ∀ (init : List (List UInt8)),
    (init.flatMap cobs.closed).length ≤ (cobs.stuffed init).length
  | [] => Nat.le_refl _
  | run :: init => by
    have ih := length_closed_le init
    have hclosed : (cobs.closed run).length ≤ run.length + 1 := by
      rw [Stuffing.closed, List.length_append]
      split_ifs
      · exact Nat.le_refl _
      · exact Nat.le_add_right _ _
    rw [List.flatMap_cons, Stuffing.stuffed_cons, List.length_append, List.length_cons,
      List.length_append]
    omega

/-- What a decoder returns where the input was right: the output, cut off where the space ends. -/
theorem result_of_clean (h : s.Wrote dst dstBufLen out false false ∨
    s.Filled dst dstBufLen out false false) : ((⟨s.dstWrite, s.status⟩, some s.dst) :
      DecodeResult × Option (List UInt8))
      = (⟨min out.length dstBufLen, ⟨false, decide (dstBufLen < out.length), false, false⟩⟩,
        some (out.take dstBufLen ++ dst.drop (min out.length dstBufLen))) := by
  rcases h with h | h
  · rw [h.write, h.dst, h.status, Nat.min_eq_left h.fits, List.take_of_length_le h.fits,
      decide_eq_false (Nat.not_lt.mpr h.fits)]
  · rw [h.write, h.dst, h.status, Nat.min_eq_right (Nat.le_of_lt h.exceeds), decide_eq_true h.exceeds]

/-- What a decoder returns for any input: `out` and nothing behind it. -/
theorem result_of_any {w : List UInt8} (h : s.Wrote dst dstBufLen w zero short ∨
    s.Filled dst dstBufLen w zero short) : ∃ out, out.length ≤ dstBufLen ∧ out <+: w ∧
    ((⟨s.dstWrite, s.status⟩, some s.dst) : DecodeResult × Option (List UInt8))
      = (⟨out.length, s.status⟩, some (out ++ dst.drop out.length)) := by
  rcases h with h | h
  · exact ⟨w, h.fits, List.prefix_rfl, by rw [h.write, h.dst]⟩
  · have htake := List.length_take_of_le (Nat.le_of_lt h.exceeds)
    exact ⟨_, htake.le, List.take_prefix _ _, by rw [htake, h.write, h.dst]⟩

/-- **A valid string is decoded**, as far as there is space for it, and nothing behind that is
written. The status tells whether it was cut off. -/
theorem cobsDecode_stuffs (hlen : dstBufLen ≤ dst.length) {w b : List UInt8}
    (hw : cobs.Stuffs w b) : cobsDecode (some dst) dstBufLen (some w)
      = (⟨min b.length dstBufLen, ⟨false, decide (dstBufLen < b.length), false, false⟩⟩,
        some (b.take dstBufLen ++ dst.drop (min b.length dstBufLen))) := by
  by_cases hnil : w = []
  · subst hnil
    obtain rfl := hw.unique .nil
    exact result_of_clean (Or.inl (wrote_init dst dstBufLen))
  · obtain ⟨init, run, hvalid, hwgroups, rfl⟩ := hw.groups hnil
    obtain ⟨hinit, hrun, hmax⟩ := valid_concat.mp hvalid
    have hcode : cobs.code run.length ≠ 0 := cobs.code_ne _ hmax
    have hsize : cobs.size (cobs.code run.length) = run.length := cobs.size_code _ hmax
    obtain ⟨s, hresult, hs⟩ := cobsDecode_groups hlen (a := cobs.code run.length)
      (fun r hr => (hinit r hr).2) (fun _ => hsize.ge)
    have hzero : decide (0 ∈ cobs.stuffed init ++ cobs.code run.length :: run) = false := by
      rw [← Stuffing.stuffed_concat]
      exact decide_eq_false (Stuffing.notMem_stuffed hvalid)
    have hshort : decide (cobs.code run.length ≠ 0 ∧ run.length < cobs.size (cobs.code run.length))
        = false := decide_eq_false fun h => Nat.lt_irrefl _ (hsize ▸ h.2)
    rw [hzero, hshort, if_neg hcode] at hs
    rw [hwgroups, hresult, result_of_clean hs]

/-- Any string that is not empty, taken apart. -/
theorem cobsDecode_any (hlen : dstBufLen ≤ dst.length) {w : List UInt8} (hne : w ≠ []) :
    ∃ init a x, w = cobs.stuffed init ++ a :: x ∧ (∀ run ∈ init, run.length ≤ 254) ∧
      (a ≠ 0 → x.length ≤ cobs.size a) ∧ ∃ s : DecodeState,
      cobsDecode (some dst) dstBufLen (some w) = (⟨s.dstWrite, s.status⟩, some s.dst) ∧
      (s.Wrote dst dstBufLen (init.flatMap cobs.closed ++ if a = 0 then [] else x)
          (decide (0 ∈ w)) (decide (a ≠ 0 ∧ x.length < cobs.size a)) ∨
        s.Filled dst dstBufLen (init.flatMap cobs.closed ++ if a = 0 then [] else x)
          (decide (0 ∈ w)) (decide (a ≠ 0 ∧ x.length < cobs.size a))) := by
  obtain ⟨init, a, x, hinit, rfl, hx⟩ := Stuffing.exists_groups (s := cobs) hne
  exact ⟨init, a, x, rfl, hinit, hx, cobsDecode_groups hlen hinit hx⟩

/-- The groups of a string without zero that lacks nothing are what is written for a string. -/
theorem stuffs_of_groups {init : List (List UInt8)} {a : UInt8} {x : List UInt8}
    (hinit : ∀ run ∈ init, run.length ≤ 254) (hzero : 0 ∉ cobs.stuffed init ++ a :: x)
    (hx : x.length = cobs.size a) :
    cobs.Stuffs (cobs.stuffed init ++ a :: x) (init.flatMap cobs.closed ++ x) := by
  have hmem : 0 ∉ a :: x := fun h => hzero (List.mem_append_right _ h)
  rw [List.mem_cons, not_or] at hmem
  have ha : a ≠ 0 := Ne.symm hmem.1
  have hcode : cobs.code x.length = a := by
    rw [hx]
    exact cobs.code_size a ha
  refine ⟨init ++ [x], valid_concat.mpr ⟨Stuffing.valid_of_notMem hinit hzero, hmem.2, ?_⟩, ?_, ?_⟩
  · rw [hx]
    exact cobs.size_le a ha
  · rw [Stuffing.stuffed_concat, hcode]
  · exact Stuffing.join_concat init x

/-- **The status is `COBS_DECODE_OK` for the valid strings** that there is space for, and for no
other. -/
theorem cobsDecode_ok_iff (hlen : dstBufLen ≤ dst.length) (w : List UInt8) :
    (cobsDecode (some dst) dstBufLen (some w)).1.status = decodeOk ↔
      ∃ b, cobs.Stuffs w b ∧ b.length ≤ dstBufLen := by
  constructor
  · intro hok
    by_cases hne : w = []
    · subst hne
      exact ⟨[], .nil, Nat.zero_le _⟩
    · obtain ⟨init, a, x, rfl, hinit, hx, s, hresult, hs⟩ := cobsDecode_any hlen hne
      rw [hresult] at hok
      rcases hs with h | h
      · obtain ⟨-, -, hzero, hshort⟩ := DecodeStatus.mk.inj (h.status.symm.trans hok)
        rw [decide_eq_false_iff_not] at hzero hshort
        have ha : a ≠ 0 := by
          rintro rfl
          exact hzero (List.mem_append_right _ List.mem_cons_self)
        have hfull : x.length = cobs.size a :=
          Nat.le_antisymm (hx ha) (Nat.not_lt.mp fun hlt => hshort ⟨ha, hlt⟩)
        have hfits := h.fits
        rw [if_neg ha] at hfits
        exact ⟨_, stuffs_of_groups hinit hzero hfull, hfits⟩
      · have hover := h.overflow
        rw [show s.status = decodeOk from hok] at hover
        exact absurd hover Bool.false_ne_true
  · rintro ⟨b, hw, hfits⟩
    rw [cobsDecode_stuffs hlen hw, decide_eq_false (Nat.not_lt.mpr hfits)]
    rfl

/-- A run that is shorter than its code says. -/
theorem cobsDecode_ok_iff_short :
    (cobsDecode (some [9, 9, 9]) 2 (some [3, 1])).1.status ≠ decodeOk ∧
      ¬ ∃ b, cobs.Stuffs [3, 1] b ∧ b.length ≤ 2 := by
  have hstatus : (cobsDecode (some [9, 9, 9]) 2 (some [3, 1])).1.status ≠ decodeOk := by decide
  exact ⟨hstatus, fun h => hstatus ((@cobsDecode_ok_iff [9, 9, 9] 2 (by decide) [3, 1]).mpr h)⟩

/-- `COBS_DECODE_DST_BUF_LEN_MAX`. -/
def decodeDstBufLenMax (srcLen : Nat) : Nat := if srcLen = 0 then 0 else srcLen - 1

/-- What the decoder reads from a string is never longer than the header says. -/
theorem length_groups_le (init : List (List UInt8)) (a : UInt8) (x : List UInt8) :
    (init.flatMap cobs.closed ++ if a = 0 then [] else x).length
      ≤ decodeDstBufLenMax (cobs.stuffed init ++ a :: x).length := by
  have hclosed := length_closed_le init
  have htail : (if a = 0 then [] else x).length ≤ x.length := by
    split_ifs
    · exact Nat.zero_le _
    · exact Nat.le_refl _
  have hlength : (cobs.stuffed init ++ a :: x).length
      = (cobs.stuffed init).length + x.length + 1 := by
    rw [List.length_append, List.length_cons]
    rfl
  rw [decodeDstBufLenMax, hlength, if_neg (Nat.succ_ne_zero _), Nat.add_sub_cancel,
    List.length_append]
  omega

/-- **No byte is written behind the length that is returned**, which is within the buffer and
within what the header gives for the source. -/
theorem cobsDecode_bounds (hlen : dstBufLen ≤ dst.length) (w : List UInt8) :
    ∃ out status, cobsDecode (some dst) dstBufLen (some w)
        = (⟨out.length, status⟩, some (out ++ dst.drop out.length)) ∧
      out.length ≤ dstBufLen ∧ out.length ≤ decodeDstBufLenMax w.length := by
  by_cases hne : w = []
  · subst hne
    exact ⟨[], decodeOk, rfl, Nat.zero_le _, Nat.zero_le _⟩
  · obtain ⟨init, a, x, rfl, hinit, hx, s, hresult, hs⟩ := cobsDecode_any hlen hne
    obtain ⟨out, hfits, hout, heq⟩ := result_of_any hs
    exact ⟨out, s.status, hresult.trans heq, hfits,
      Nat.le_trans hout.length_le (length_groups_le init a x)⟩

/-- Codes of zero. -/
theorem cobsDecode_bounds_zeros :
    ∃ out status, cobsDecode (some [9, 9, 9]) 2 (some [0, 0, 1])
        = (⟨out.length, status⟩, some (out ++ [9, 9, 9].drop out.length)) ∧
      out.length ≤ 2 ∧ out.length ≤ decodeDstBufLenMax 3 :=
  @cobsDecode_bounds [9, 9, 9] 2 (by decide) [0, 0, 1]

/-- **What the status says** where there is the space that the header asks for: whether there is a
zero in the input, and if there is none, whether the input is too short. -/
theorem cobsDecode_status (hlen : dstBufLen ≤ dst.length) (w : List UInt8)
    (hroom : decodeDstBufLenMax w.length ≤ dstBufLen) :
    ∃ short, (cobsDecode (some dst) dstBufLen (some w)).1.status
        = ⟨false, false, decide (0 ∈ w), short⟩ ∧
      (0 ∉ w → (short = true ↔ ¬ ∃ b, cobs.Stuffs w b)) := by
  by_cases hne : w = []
  · subst hne
    exact ⟨false, rfl, fun _ => ⟨fun h => absurd h Bool.false_ne_true,
      fun h => absurd ⟨[], .nil⟩ h⟩⟩
  · obtain ⟨init, a, x, rfl, hinit, hx, s, hresult, hs⟩ := cobsDecode_any hlen hne
    have hmax := length_groups_le init a x
    rcases hs with h | h
    · refine ⟨_, by rw [hresult, h.status], fun hzero => ⟨?_, ?_⟩⟩
      · rintro hshort ⟨b, hb⟩
        have hstatus := congrArg (fun r => r.1.status.inputTooShort)
          (hresult.symm.trans (cobsDecode_stuffs hlen hb))
        dsimp only at hstatus
        rw [h.status, hshort] at hstatus
        exact absurd hstatus.symm Bool.false_ne_true
      · intro hno
        by_contra hshort
        rw [decide_eq_true_iff] at hshort
        have ha : a ≠ 0 := by
          rintro rfl
          exact hzero (List.mem_append_right _ List.mem_cons_self)
        have hfull : x.length = cobs.size a :=
          Nat.le_antisymm (hx ha) (Nat.not_lt.mp fun hlt => hshort ⟨ha, hlt⟩)
        exact hno ⟨_, stuffs_of_groups hinit hzero hfull⟩
    · have hover := h.exceeds
      omega

/-- Nothing that is encoded starts with a code of three and has one byte behind it. -/
theorem cobsDecode_status_short :
    (cobsDecode (some [9, 9, 9]) 3 (some [3, 1])).1.status = ⟨false, false, false, true⟩ ∧
      ¬ ∃ b, cobs.Stuffs [3, 1] b := by
  obtain ⟨short, hstatus, hshort⟩ :=
    @cobsDecode_status [9, 9, 9] 3 (by decide) [3, 1] (by decide)
  have htrue : (cobsDecode (some [9, 9, 9]) 3 (some [3, 1])).1.status
      = ⟨false, false, false, true⟩ := by decide
  refine ⟨htrue, (hshort (by decide)).mp ?_⟩
  exact congrArg DecodeStatus.inputTooShort (hstatus.symm.trans htrue)

/-- **The start of what is written for a string** gives the start of that string, and not all of
it. -/
theorem cobsDecode_truncated (hlen : dstBufLen ≤ dst.length) {w b : List UInt8}
    (hw : w <+: cobs.encode b) (hroom : decodeDstBufLenMax w.length ≤ dstBufLen) :
    ∃ out status, cobsDecode (some dst) dstBufLen (some w)
        = (⟨out.length, status⟩, some (out ++ dst.drop out.length)) ∧
      out <+: b ∧ (w ≠ cobs.encode b → b ≠ [] → out ≠ b) := by
  by_cases hne : w = []
  · subst hne
    exact ⟨[], decodeOk, rfl, List.nil_prefix, fun _ hb => Ne.symm hb⟩
  · obtain ⟨init, a, x, rfl, hinit, hx, s, hresult, hs⟩ := cobsDecode_any hlen hne
    have hmax := length_groups_le init a x
    have hzero : 0 ∉ cobs.stuffed init ++ a :: x := fun h =>
      Stuffing.notMem_stuffed (Stuffing.valid_encode b) (hw.subset h)
    have hmem : 0 ∉ a :: x := fun h => hzero (List.mem_append_right _ h)
    rw [List.mem_cons, not_or] at hmem
    have ha : a ≠ 0 := Ne.symm hmem.1
    have hvalid : cobs.Valid init := Stuffing.valid_of_notMem hinit hzero
    have hpre := Stuffing.groups_prefix hvalid (Stuffing.valid_encode b) ha (hx ha) hw
    rw [Stuffing.join_encode] at hpre
    rw [if_neg ha] at hs hmax
    rcases hs with h | h
    · refine ⟨_, s.status, by rw [hresult, h.write, h.dst], hpre, ?_⟩
      intro hcut hb heq
      have hstuffs : cobs.Stuffs (cobs.stuffed (init ++ [x])) b := by
        refine ⟨init ++ [x], valid_concat.mpr ⟨hvalid, hmem.2, ?_⟩, rfl, ?_⟩
        · exact Nat.le_trans (hx ha) (cobs.size_le a ha)
        · rw [Stuffing.join_concat, heq]
      have hle := hstuffs.length_le hb
      have hlt : (cobs.stuffed init ++ a :: x).length < (cobs.encode b).length :=
        Nat.lt_of_le_of_ne hw.length_le fun h => hcut (hw.eq_of_length h)
      rw [Stuffing.stuffed_concat, List.length_append, List.length_cons] at hle
      rw [List.length_append, List.length_cons] at hlt
      omega
    · have hover := h.exceeds
      omega

/-- The first two of four bytes. -/
theorem cobsDecode_truncated_two :
    let src : List UInt8 := [1, 0, 2]
    ∃ out status, cobsDecode (some [9, 9, 9]) 3 (some [2, 1])
        = (⟨out.length, status⟩, some (out ++ [9, 9, 9].drop out.length)) ∧
      out <+: src ∧ ([2, 1] ≠ cobs.encode src → src ≠ [] → out ≠ src) := by
  intro src
  exact @cobsDecode_truncated [9, 9, 9] 3 (by decide) [2, 1] src (by decide) (by decide)

/-! ## Together with the encoder -/

/-- `COBS_ENCODE_DST_BUF_LEN_MAX`. -/
def encodeDstBufLenMax (srcLen : Nat) : Nat := srcLen + (srcLen + 253) / 254

/-- The encoding is as long as the header says, at most. -/
theorem length_encode_le {b : List UInt8} (hb : b ≠ []) :
    (cobs.encode b).length ≤ encodeDstBufLenMax b.length := by
  have hfull : 254 * cobs.fullRuns (cobs.runs [] b) < 0 + b.length :=
    Stuffing.fullRuns_runs [] b (Or.inl cobs.maxRun_pos) hb
  rw [Stuffing.length_encode, encodeDstBufLenMax]
  omega

/-- **The round trip** with the buffers that the headers ask for: what is encoded has no zero byte
in it, and decoding it gives the source back. -/
theorem cobsEncode_cobsDecode {dst' src : List UInt8} {dstBufLen' : Nat} (hsrc : src ≠ [])
    (hlen : dstBufLen ≤ dst.length) (hroom : encodeDstBufLenMax src.length ≤ dstBufLen)
    (hlen' : dstBufLen' ≤ dst'.length) : ∃ w,
    cobsEncode (some dst) dstBufLen (some src)
        = (⟨w.length, encodeOk⟩, some (w ++ dst.drop w.length)) ∧
      0 ∉ w ∧ w.length ≤ encodeDstBufLenMax src.length ∧
      (decodeDstBufLenMax w.length ≤ dstBufLen' →
        cobsDecode (some dst') dstBufLen' (some w)
          = (⟨src.length, decodeOk⟩, some (src ++ dst'.drop src.length))) := by
  have hmax := length_encode_le hsrc
  refine ⟨cobs.encode src, cobsEncode_encode hlen src (by omega),
    Stuffing.notMem_stuffed (Stuffing.valid_encode src), hmax, fun hroom' => ?_⟩
  have hfits : src.length ≤ dstBufLen' := by
    have hlength := Stuffing.length_encode (s := cobs) src
    rw [decodeDstBufLenMax, if_neg (by omega)] at hroom'
    omega
  rw [cobsDecode_stuffs hlen' (Stuffing.stuffs_encode src), Nat.min_eq_left hfits,
    List.take_of_length_le hfits, decide_eq_false (Nat.not_lt.mpr hfits)]
  rfl

/-- Three bytes, and back. -/
theorem cobsEncode_cobsDecode_three : ∃ w,
    cobsEncode (some [9, 9, 9, 9, 9]) 5 (some [1, 0, 2])
        = (⟨w.length, encodeOk⟩, some (w ++ [9, 9, 9, 9, 9].drop w.length)) ∧
      0 ∉ w ∧ w.length ≤ encodeDstBufLenMax 3 ∧
      (decodeDstBufLenMax w.length ≤ 4 → cobsDecode (some [7, 7, 7, 7]) 4 (some w)
          = (⟨3, decodeOk⟩, some ([1, 0, 2] ++ [7]))) :=
  @cobsEncode_cobsDecode [9, 9, 9, 9, 9] 5 [7, 7, 7, 7] [1, 0, 2] 4 (by decide) (by decide)
    (by decide) (by decide)

end EmbeddedTestbench.Cobs
