import EmbeddedTestbench.Cobs.Decode

/-!
# COBS/R (`cobsr.c`)

The encoder has the loop of `cobs_encode`. At the end the last byte takes the place of the code of
the last run where it is not below that code, and the string is one byte shorter. The decoder takes
a code that promises more bytes than there are for such a last byte, so that no string is too short.

Headlines:
* **`cobsrEncode_encode`**, **`cobsrEncode_overflow`**: what `cobsr_encode` returns and leaves in
  the destination.
* **`cobsrDecodeLoop_readsGroups`**: what the loop of the decoder does with any string.
* **`cobsrDecode_notMem`**: a string without zero is decoded to one string, in every buffer as far as
  that has space for it.
* **`cobsrDecode_status`**, **`cobsrDecode_stuffs`**: every string without zero is accepted, and the
  valid COBS strings are decoded as `cobs_decode` does.
* **`cobsrEncode_cobsrDecode`**: the round trip.
-/

namespace EmbeddedTestbench.Cobs

open EmbeddedTestbench.Lib

/-! ## Definitions -/

/-- What is written at the end: the code of the last run, or in its place the last byte, which is
then not counted where it was written. -/
def EncodeState.writeLast (s : EncodeState) : EncodeState :=
  if s.srcByte < s.searchLen then { s with dst := s.dst.set s.dstCodeWrite s.searchLen }
  else { s with dst := s.dst.set s.dstCodeWrite s.srcByte, dstWrite := s.dstWrite - 1 }

/-- `cobsr_encode`; `none` is `NULL`, and `src_len` is the length of the source. -/
def cobsrEncode (dst : Option (List UInt8)) (dstBufLen : Nat) (src : Option (List UInt8)) :
    EncodeResult × Option (List UInt8) :=
  match dst, src with
  | some dst, some src =>
    let s := encodeLoop dstBufLen src (.init dst)
    if dstBufLen ≤ s.dstCodeWrite then (⟨dstBufLen, ⟨false, true⟩⟩, some s.dst)
    else (⟨s.writeLast.dstWrite, ⟨false, s.overflow⟩⟩, some s.writeLast.dst)
  | dst, _ => (⟨0, ⟨true, false⟩⟩, dst)

/-- The `for (;;)`, which reads a code and its run in each turn; `fuel` bounds the turns. -/
def cobsrDecodeLoop (dstBufLen : Nat) : Nat → List UInt8 → DecodeState → DecodeState
  | fuel + 1, lenCode :: src, s =>
    if lenCode = 0 then s.zeroByte
    else if lenCode.toNat - 1 < src.length then
      let numOutputBytes := lenCode.toNat - 1
      let remaining := dstBufLen - s.dstWrite
      let s := if remaining < numOutputBytes then s.overflow else s
      let numOutputBytes := min numOutputBytes remaining
      let (src, s) := copyBytes numOutputBytes src s
      if lenCode = 0xFF then cobsrDecodeLoop dstBufLen fuel src s
      else if dstBufLen ≤ s.dstWrite then s.overflow
      else cobsrDecodeLoop dstBufLen fuel src (s.writeByte 0)
    else
      -- the last code
      let numOutputBytes := src.length
      let remaining := dstBufLen - s.dstWrite
      let s := if remaining < numOutputBytes then s.overflow else s
      let numOutputBytes := min numOutputBytes remaining
      let s := (copyBytes numOutputBytes src s).2
      if src.length < lenCode.toNat - 1 then
        if dstBufLen ≤ s.dstWrite then s.overflow else s.writeByte lenCode
      else s
  | _, _, s => s

/-- `cobsr_decode`; `none` is `NULL`, and `src_len` is the length of the source. -/
def cobsrDecode (dst : Option (List UInt8)) (dstBufLen : Nat) (src : Option (List UInt8)) :
    DecodeResult × Option (List UInt8) :=
  match dst, src with
  | some dst, some src =>
    let s := cobsrDecodeLoop dstBufLen src.length src (.init dst)
    (⟨s.dstWrite, s.status⟩, some s.dst)
  | dst, _ => (⟨0, ⟨true, false, false, false⟩⟩, dst)

/-! ## The decoder's loop -/

variable {dst : List UInt8} {dstBufLen : Nat} {out run src : List UInt8} {zero : Bool}
  {s : DecodeState}

theorem DecodeState.Filled.zeroByte (h : s.Filled dst dstBufLen out zero false) :
    s.zeroByte.Filled dst dstBufLen out true false :=
  ⟨h.exceeds, h.write, h.dst, h.nullPointer, h.overflow, fun _ => rfl, h.short⟩

theorem copyBytes_zero (src : List UInt8) (s : DecodeState) : copyBytes 0 src s = (src, s) := by
  rw [copyBytes]
  exact fun i _ _ hi => absurd hi (Nat.succ_ne_zero i).symm

/-- Once the destination is full, the loop only reads on. Behind a full run that was cut off it
takes bytes of the run for codes. -/
theorem cobsrDecodeLoop_filled : ∀ (fuel : Nat) (src : List UInt8) {zero : Bool} {s : DecodeState},
    s.Filled dst dstBufLen out zero false →
    (cobsrDecodeLoop dstBufLen fuel src s).Filled dst dstBufLen out (zero || decide (0 ∈ src))
      false
  | 0, src, zero, s, h => by
    rw [cobsrDecodeLoop]
    · exact h.mono fun hz => by rw [hz, Bool.true_or]
    · exact fun _ _ _ hfuel => absurd hfuel (Nat.succ_ne_zero _).symm
  | fuel + 1, [], zero, s, h => h.mono fun hz => by rw [hz, Bool.true_or]
  | fuel + 1, lenCode :: src, zero, s, h => by
    have hremaining : dstBufLen - s.dstWrite = 0 := by rw [h.write, Nat.sub_self]
    have hflag : ∀ k, (if 0 < k then s.overflow else s).Filled dst dstBufLen out zero false := by
      intro k
      split_ifs
      · exact h.flag
      · exact h
    have hmono : ∀ {s : DecodeState}, s.Filled dst dstBufLen out zero false →
        s.Filled dst dstBufLen out (zero || decide (0 ∈ lenCode :: src)) false := fun h =>
      h.mono fun hz => by rw [hz, Bool.true_or]
    rw [cobsrDecodeLoop]
    by_cases hzero : lenCode = 0
    · rw [if_pos hzero]
      refine h.zeroByte.mono fun _ => ?_
      rw [decide_eq_true (hzero ▸ List.mem_cons_self), Bool.or_true]
    · rw [if_neg hzero]
      simp only [hremaining, Nat.min_zero, copyBytes_zero]
      by_cases hmore : lenCode.toNat - 1 < src.length
      · have hs := hflag (lenCode.toNat - 1)
        rw [if_pos hmore]
        generalize (if 0 < lenCode.toNat - 1 then s.overflow else s) = s at hs
        by_cases hlong : lenCode = 0xFF
        · rw [if_pos hlong]
          refine (cobsrDecodeLoop_filled fuel src hs).mono fun hz => ?_
          rw [Bool.or_eq_true, decide_eq_true_iff] at hz ⊢
          exact hz.imp_right (List.mem_cons_of_mem _)
        · rw [if_neg hlong, if_pos hs.write.ge]
          exact hmono hs.flag
      · have hs := hflag src.length
        rw [if_neg hmore]
        generalize (if 0 < src.length then s.overflow else s) = s at hs
        by_cases hlast : src.length < lenCode.toNat - 1
        · rw [if_pos hlast, if_pos hs.write.ge]
          exact hmono hs.flag
        · rw [if_neg hlast]
          exact hmono hs

/-- A zero byte that was read in a group or behind it. -/
theorem zero_of_read {x : List UInt8} (hz : (zero || decide (0 ∈ run)) = true ∨ 0 ∈ x)
    (hx : x ⊆ run ++ src) : (zero || decide (0 ∈ run ++ src)) = true := by
  rw [Bool.or_eq_true, decide_eq_true_iff] at hz ⊢
  rcases hz with (hz | hz) | hz
  · exact Or.inl hz
  · exact Or.inr (List.mem_append_left _ hz)
  · exact Or.inr (hx hz)

/-- A group with something behind it, of which there is no space for the run. -/
theorem cobsrDecodeLoop_groupCut (hlen : dstBufLen ≤ dst.length)
    (h : s.Wrote dst dstBufLen out zero false) (hrun : run.length ≤ 254) (hsrc : src ≠ [])
    (hover : dstBufLen - s.dstWrite < run.length) (fuel : Nat) :
    (cobsrDecodeLoop dstBufLen (fuel + 1) (cobs.group run ++ src) s).Filled dst dstBufLen
      (out ++ cobs.closed run) (zero || decide (0 ∈ run ++ src)) false := by
  have hcode : cobs.code run.length ≠ 0 := cobs.code_ne _ hrun
  have hlength : (run ++ src).length = run.length + src.length := List.length_append
  have hmore : run.length < (run ++ src).length := by
    have := List.length_pos_of_ne_nil hsrc
    omega
  obtain ⟨hrest, hfilled⟩ := copyBytes_filled hlen h hmore.le hover
  rw [show (run ++ src).take run.length = run from List.take_left] at hfilled
  have hclosed := hfilled.append (if run.length < cobs.maxRun then [cobs.delimiter] else [])
    false false
  rw [Bool.or_false, Bool.or_false, List.append_assoc, ← Stuffing.closed] at hclosed
  rw [Stuffing.group, List.cons_append, cobsrDecodeLoop, if_neg hcode]
  simp only [code_toNat hrun, Nat.add_sub_cancel, if_pos hmore, if_pos hover,
    Nat.min_eq_right (Nat.le_of_lt hover), hrest]
  by_cases hlong : cobs.code run.length = 0xFF
  · rw [if_pos hlong]
    refine (cobsrDecodeLoop_filled fuel _ hclosed).mono fun hz => ?_
    rw [Bool.or_eq_true, decide_eq_true_iff] at hz
    exact zero_of_read hz (List.drop_subset _ _)
  · rw [if_neg hlong, if_pos hfilled.write.ge]
    exact hclosed.flag.mono fun hz => zero_of_read (Or.inl hz) (List.Subset.refl _)

/-- **A group with something behind it**: the loop goes on behind its run, or the space ends in
it. -/
theorem cobsrDecodeLoop_group (hlen : dstBufLen ≤ dst.length)
    (h : s.Wrote dst dstBufLen out zero false) (hrun : run.length ≤ 254) (hsrc : src ≠ [])
    (fuel : Nat) :
    (∃ s', s'.Wrote dst dstBufLen (out ++ cobs.closed run) (zero || decide (0 ∈ run)) false ∧
      cobsrDecodeLoop dstBufLen (fuel + 1) (cobs.group run ++ src) s
        = cobsrDecodeLoop dstBufLen fuel src s') ∨
    (cobsrDecodeLoop dstBufLen (fuel + 1) (cobs.group run ++ src) s).Filled dst dstBufLen
      (out ++ cobs.closed run) (zero || decide (0 ∈ run ++ src)) false := by
  by_cases hover : dstBufLen - s.dstWrite < run.length
  · exact Or.inr (cobsrDecodeLoop_groupCut hlen h hrun hsrc hover fuel)
  · have hcode : cobs.code run.length ≠ 0 := cobs.code_ne _ hrun
    have hfull : cobs.code run.length = 0xFF ↔ run.length = 254 := by
      rw [← UInt8.toNat_inj, code_toNat hrun]
      show run.length + 1 = 255 ↔ _
      omega
    have hlength : (run ++ src).length = run.length + src.length := List.length_append
    have hmore : run.length < (run ++ src).length := by
      have := List.length_pos_of_ne_nil hsrc
      omega
    have hfits := h.fits
    have hwrite := h.write
    obtain ⟨hrest, hcopied⟩ := copyBytes_spec hlen run.length _ h hmore.le (by omega)
    rw [show (run ++ src).take run.length = run from List.take_left] at hcopied
    rw [List.drop_left] at hrest
    rw [Stuffing.group, List.cons_append, cobsrDecodeLoop, if_neg hcode]
    simp only [code_toNat hrun, Nat.add_sub_cancel, if_pos hmore, if_neg hover,
      Nat.min_eq_left (Nat.not_lt.mp hover), hrest]
    by_cases hlong : run.length = 254
    · have hclosed : cobs.closed run = run := by
        rw [Stuffing.closed, if_neg (show ¬ run.length < cobs.maxRun from hlong.not_lt),
          List.append_nil]
      rw [if_pos (hfull.mpr hlong), hclosed]
      exact Or.inl ⟨_, hcopied, rfl⟩
    · have hclosed : out ++ cobs.closed run = out ++ run ++ [0] := by
        have hshort : run.length < cobs.maxRun := Nat.lt_of_le_of_ne hrun hlong
        rw [Stuffing.closed, if_pos hshort, List.append_assoc]
        rfl
      rw [if_neg (mt hfull.mp hlong), hclosed]
      by_cases hspace : dstBufLen ≤ (copyBytes run.length (run ++ src) s).2.dstWrite
      · right
        have hfills : (out ++ run).length = dstBufLen :=
          Nat.le_antisymm hcopied.fits (hcopied.write ▸ hspace)
        rw [if_pos hspace]
        have hfilled := hcopied.overflow hfills (List.cons_ne_nil 0 []) false false
        rw [Bool.or_false, Bool.or_false] at hfilled
        exact hfilled.mono fun hz => zero_of_read (Or.inl hz) (List.Subset.refl _)
      · left
        rw [if_neg hspace]
        exact ⟨_, hcopied.writeByte hlen (hcopied.write ▸ Nat.not_le.mp hspace) 0, rfl⟩

/-- The last group, whose code is the last byte where it promises too much. -/
theorem cobsrDecodeLoop_last (hlen : dstBufLen ≤ dst.length)
    (h : s.Wrote dst dstBufLen out zero false) {a : UInt8} {x : List UInt8} (ha : a ≠ 0)
    (hx : x.length ≤ cobs.size a) (fuel : Nat) :
    (cobsrDecodeLoop dstBufLen (fuel + 1) (a :: x) s).Wrote dst dstBufLen
      (out ++ cobs.restored a x) (zero || decide (0 ∈ x)) false ∨
    (cobsrDecodeLoop dstBufLen (fuel + 1) (a :: x) s).Filled dst dstBufLen
      (out ++ cobs.restored a x) (zero || decide (0 ∈ x)) false := by
  have hsize : a.toNat - 1 = cobs.size a := rfl
  have hfits := h.fits
  have hwrite := h.write
  rw [cobsrDecodeLoop, if_neg ha, Stuffing.restored]
  simp only [hsize, if_neg (Nat.not_lt.mpr hx)]
  by_cases hover : dstBufLen - s.dstWrite < x.length
  · right
    obtain ⟨-, hfilled⟩ := copyBytes_filled hlen h (Nat.le_refl x.length) hover
    rw [List.take_length] at hfilled
    simp only [if_pos hover, Nat.min_eq_right (Nat.le_of_lt hover), if_pos hfilled.write.ge]
    split_ifs
    · have hlast := hfilled.flag.append [a] false false
      rwa [Bool.or_false, Bool.or_false, List.append_assoc] at hlast
    · exact hfilled
  · obtain ⟨-, hcopied⟩ := copyBytes_spec hlen x.length x h (Nat.le_refl _) (by omega)
    rw [List.take_length] at hcopied
    simp only [if_neg hover, Nat.min_eq_left (Nat.not_lt.mp hover)]
    by_cases hshort : x.length < cobs.size a
    · rw [if_pos hshort, if_pos hshort, ← List.append_assoc]
      by_cases hspace : dstBufLen ≤ (copyBytes x.length x s).2.dstWrite
      · right
        have hfills : (out ++ x).length = dstBufLen :=
          Nat.le_antisymm hcopied.fits (hcopied.write ▸ hspace)
        have hfilled := hcopied.overflow hfills (List.cons_ne_nil a []) false false
        rw [Bool.or_false, Bool.or_false] at hfilled
        rw [if_pos hspace]
        exact hfilled
      · left
        rw [if_neg hspace]
        exact hcopied.writeByte hlen (hcopied.write ▸ Nat.not_le.mp hspace) a
    · left
      rw [if_neg hshort, if_neg hshort]
      exact hcopied

/-- **`cobsr_decode` reads groups**, and gives the last one the byte it lacks. -/
theorem cobsrDecodeLoop_readsGroups (hlen : dstBufLen ≤ dst.length) {a : UInt8} {x : List UInt8}
    (hx : a ≠ 0 → x.length ≤ cobs.size a) :
    ReadsGroups dst dstBufLen (cobsrDecodeLoop dstBufLen) (a :: x)
      (if a = 0 then [] else cobs.restored a x) false where
  group fuel h hrun hsrc := cobsrDecodeLoop_group hlen h hrun hsrc fuel
  last {out zero s} fuel h := by
    by_cases ha : a = 0
    · left
      subst ha
      have hmem : decide ((0 : UInt8) ∈ 0 :: x) = true := decide_eq_true List.mem_cons_self
      rw [hmem, Bool.or_true, if_pos rfl, List.append_nil, cobsrDecodeLoop, if_pos rfl]
      exact h.zeroByte
    · have hmem : decide ((0 : UInt8) ∈ a :: x) = decide (0 ∈ x) := by
        rw [decide_eq_decide, List.mem_cons, or_iff_right (Ne.symm ha)]
      rw [if_neg ha, hmem]
      exact cobsrDecodeLoop_last hlen h ha (hx ha) fuel

/-! ## The decoder's result -/

/-- `cobsr_decode` on a string taken apart into groups. -/
theorem cobsrDecode_groups (hlen : dstBufLen ≤ dst.length) {init : List (List UInt8)} {a : UInt8}
    {x : List UInt8} (hinit : ∀ run ∈ init, run.length ≤ 254)
    (hx : a ≠ 0 → x.length ≤ cobs.size a) : ∃ s : DecodeState,
    cobsrDecode (some dst) dstBufLen (some (cobs.stuffed init ++ a :: x))
      = (⟨s.dstWrite, s.status⟩, some s.dst) ∧
    (s.Wrote dst dstBufLen (init.flatMap cobs.closed ++ if a = 0 then [] else cobs.restored a x)
        (decide (0 ∈ cobs.stuffed init ++ a :: x)) false ∨
      s.Filled dst dstBufLen (init.flatMap cobs.closed ++ if a = 0 then [] else cobs.restored a x)
        (decide (0 ∈ cobs.stuffed init ++ a :: x)) false) := by
  have hloop := (cobsrDecodeLoop_readsGroups hlen hx).whole (List.cons_ne_nil a x)
    (cobs.stuffed init ++ a :: x).length (wrote_init dst dstBufLen) hinit (Nat.le_refl _)
  dsimp only at hloop
  rw [Bool.false_or, List.nil_append] at hloop
  exact ⟨_, rfl, hloop⟩

/-- **A string that can be read is decoded**, as far as there is space for it, and nothing behind
that is written. -/
theorem cobsrDecode_spells (hlen : dstBufLen ≤ dst.length) {w b : List UInt8}
    (hw : cobs.Spells w b) : cobsrDecode (some dst) dstBufLen (some w)
      = (⟨min b.length dstBufLen, ⟨false, decide (dstBufLen < b.length), false, false⟩⟩,
        some (b.take dstBufLen ++ dst.drop (min b.length dstBufLen))) := by
  have hzero : decide (0 ∈ w) = false := decide_eq_false hw.notMem
  rcases hw with ⟨rfl, rfl⟩ | ⟨init, a, x, hvalid, ha, -, hx, rfl, rfl⟩
  · exact result_of_clean (Or.inl (wrote_init dst dstBufLen))
  · obtain ⟨s, hresult, hs⟩ := cobsrDecode_groups hlen (fun r hr => (hvalid r hr).2) fun _ => hx
    have hne : a ≠ 0 := ha
    rw [hzero, if_neg hne] at hs
    rw [hresult, result_of_clean hs]

/-- What is read is not longer than what it is read from. -/
theorem length_restored_le (init : List (List UInt8)) (a : UInt8) (x : List UInt8) :
    (init.flatMap cobs.closed ++ cobs.restored a x).length
      ≤ (cobs.stuffed init ++ a :: x).length := by
  have hclosed := length_closed_le init
  have hlast : (cobs.restored a x).length ≤ x.length + 1 := by
    rw [Stuffing.restored]
    split_ifs
    · rw [List.length_append, List.length_singleton]
    · exact Nat.le_succ _
  rw [List.length_append, List.length_append, List.length_cons]
  omega

/-- Any string that is not empty, taken apart. -/
theorem cobsrDecode_any (hlen : dstBufLen ≤ dst.length) {w : List UInt8} (hne : w ≠ []) :
    ∃ (b : List UInt8) (s : DecodeState), b.length ≤ w.length ∧
      cobsrDecode (some dst) dstBufLen (some w) = (⟨s.dstWrite, s.status⟩, some s.dst) ∧
      (s.Wrote dst dstBufLen b (decide (0 ∈ w)) false ∨
        s.Filled dst dstBufLen b (decide (0 ∈ w)) false) := by
  obtain ⟨init, a, x, hinit, rfl, hx⟩ := Stuffing.exists_groups (s := cobs) hne
  obtain ⟨s, hresult, hs⟩ := cobsrDecode_groups hlen hinit hx
  refine ⟨_, s, Nat.le_trans ?_ (length_restored_le init a x), hresult, hs⟩
  rw [List.length_append, List.length_append]
  split_ifs
  · exact Nat.le_add_right _ _
  · exact Nat.le_refl _

/-- **Every string without zero is decoded** to some string that is not longer, in whatever space
there is. -/
theorem cobsrDecode_notMem {w : List UInt8} (hw : 0 ∉ w) : ∃ b : List UInt8, b.length ≤ w.length ∧
    ∀ (dst : List UInt8) (dstBufLen : Nat), dstBufLen ≤ dst.length →
      cobsrDecode (some dst) dstBufLen (some w)
        = (⟨min b.length dstBufLen, ⟨false, decide (dstBufLen < b.length), false, false⟩⟩,
          some (b.take dstBufLen ++ dst.drop (min b.length dstBufLen))) := by
  obtain ⟨b, hb⟩ := Stuffing.exists_spells (s := cobs) hw
  refine ⟨b, ?_, fun dst dstBufLen hlen => cobsrDecode_spells hlen hb⟩
  rcases hb with ⟨rfl, rfl⟩ | ⟨init, a, x, -, -, -, -, rfl, rfl⟩
  · exact Nat.le_refl _
  · exact length_restored_le init a x

/-- **What the status says of any string** where there is the space that the header asks for:
whether there is a zero in it, and never that it is too short. No byte is written behind the length
that is returned. -/
theorem cobsrDecode_status (hlen : dstBufLen ≤ dst.length) (w : List UInt8)
    (hroom : w.length ≤ dstBufLen) : ∃ out, cobsrDecode (some dst) dstBufLen (some w)
      = (⟨out.length, ⟨false, false, decide (0 ∈ w), false⟩⟩, some (out ++ dst.drop out.length)) ∧
    out.length ≤ w.length := by
  by_cases hne : w = []
  · subst hne
    exact ⟨[], rfl, Nat.le_refl _⟩
  · obtain ⟨b, s, hle, hresult, hs⟩ := cobsrDecode_any hlen hne
    rcases hs with h | h
    · exact ⟨b, by rw [hresult, h.write, h.dst, h.status], hle⟩
    · have hover := h.exceeds
      omega

/-- A zero in the middle. -/
theorem cobsrDecode_status_zero :
    ∃ out, cobsrDecode (some [9, 9, 9]) 3 (some [9, 0, 1])
      = (⟨out.length, ⟨false, false, true, false⟩⟩, some (out ++ [9, 9, 9].drop out.length)) ∧
    out.length ≤ 3 :=
  @cobsrDecode_status [9, 9, 9] 3 (by decide) [9, 0, 1] (by decide)

/-- **On the valid COBS strings both decoders agree.** -/
theorem cobsrDecode_stuffs (hlen : dstBufLen ≤ dst.length) {w b : List UInt8}
    (hw : cobs.Stuffs w b) : cobsrDecode (some dst) dstBufLen (some w)
      = cobsDecode (some dst) dstBufLen (some w) := by
  rw [cobsrDecode_spells hlen hw.spells, cobsDecode_stuffs hlen hw]

/-- The plain encoding of three bytes, in too little space. -/
theorem cobsrDecode_stuffs_three :
    cobsrDecode (some [9, 9, 9]) 2 (some [2, 1, 2, 2])
      = cobsDecode (some [9, 9, 9]) 2 (some [2, 1, 2, 2]) :=
  @cobsrDecode_stuffs [9, 9, 9] 2 (by decide) _ _ (Stuffing.stuffs_encode [1, 0, 2])

/-! ## The encoder -/

variable {done : List (List UInt8)} {t : EncodeState}

/-- Whether the last byte takes the place of the code of its run. -/
theorem EncodeState.Holds.srcByte_lt (h : t.Holds dst dstBufLen done run) {x : List UInt8}
    {a : UInt8} (hrun : run = x ++ [a]) :
    t.srcByte < t.searchLen ↔ ¬ run.length ≤ cobs.size a := by
  obtain ⟨-, hzero, hmax⟩ := valid_concat.mp h.valid
  have ha : a ≠ 0 := by
    rintro rfl
    exact hzero (hrun ▸ List.mem_append_right _ (List.mem_singleton_self _))
  have hpos : a.toNat ≠ 0 := fun h => ha (UInt8.toNat_inj.mp h)
  rw [h.last a (by rw [hrun, List.getLast?_concat]), h.searchLen, UInt8.lt_iff_toNat_lt,
    code_toNat hmax]
  show _ ↔ ¬ run.length ≤ a.toNat - 1
  omega

/-- The destination with the last byte in the place of the code. It is still there behind the
run. -/
theorem EncodeState.Holds.dst_srcByte (h : t.Holds dst dstBufLen done run)
    (hroom : (cobs.stuffed done).length < dst.length) {x : List UInt8} {a : UInt8}
    (hrun : run = x ++ [a]) : t.dst.set t.dstCodeWrite t.srcByte = cobs.stuffed done ++ a :: x ++
      ([a] ++ dst.drop (cobs.stuffed (done ++ [run])).length) := by
  have htake : (dst.drop (cobs.stuffed done).length).take 1
      = [dst[(cobs.stuffed done).length]] := by
    rw [List.drop_eq_getElem_cons hroom]
    rfl
  rw [h.last a (by rw [hrun, List.getLast?_concat]), h.dst, htake, h.codeWrite,
    List.set_append_right _ _ (Nat.le_refl _), Nat.sub_self, length_stuffed_concat]
  simp [hrun]

/-- What `writeLast` leaves: the last run reduced where that saves a byte, which is left behind it. -/
def EncodeState.Finished (dst : List UInt8) (done : List (List UInt8)) (run : List UInt8)
    (s : EncodeState) : Prop :=
  ∃ saved, s.dstWrite = (cobs.stuffed done ++ cobs.reducedGroup run).length ∧
    s.dst = cobs.stuffed done ++ cobs.reducedGroup run
      ++ (saved ++ dst.drop (cobs.stuffed (done ++ [run])).length) ∧
    (cobs.stuffed done ++ cobs.reducedGroup run).length + saved.length
      = (cobs.stuffed (done ++ [run])).length

theorem EncodeState.Holds.writeLast (h : t.Holds dst dstBufLen done run)
    (hroom : (cobs.stuffed done).length < dst.length) (hlast : run = [] → t.srcByte = 0) :
    t.writeLast.Finished dst done run := by
  have hwrite : t.dstWrite = (cobs.stuffed (done ++ [run])).length := by
    rw [h.write, length_stuffed_concat]
  have hplain : t.srcByte < t.searchLen → cobs.reducedGroup run = cobs.group run →
      t.writeLast.Finished dst done run := by
    intro hlt hgroup
    have hstuffed : cobs.stuffed done ++ cobs.reducedGroup run = cobs.stuffed (done ++ [run]) := by
      rw [hgroup, Stuffing.stuffed_concat, Stuffing.group]
    rw [EncodeState.writeLast, if_pos hlt]
    refine ⟨[], ?_, ?_, ?_⟩
    · rw [hstuffed]
      exact hwrite
    · rw [hstuffed]
      exact h.dst_code hroom
    · rw [hstuffed]
      rfl
  rcases List.eq_nil_or_concat' run with rfl | ⟨x, a, hrun⟩
  · refine hplain ?_ rfl
    rw [hlast rfl, h.searchLen]
    decide
  · have hgroup : cobs.reducedGroup run
        = if run.length ≤ cobs.size a then a :: x else cobs.group run := by
      rw [hrun, Stuffing.reducedGroup, List.getLast?_concat, List.dropLast_concat]
    by_cases hsize : run.length ≤ cobs.size a
    · have hlength : (cobs.stuffed done ++ a :: x).length + 1
          = (cobs.stuffed (done ++ [run])).length := by
        rw [length_stuffed_concat, hrun, List.length_append, List.length_append, List.length_cons,
          List.length_singleton]
        omega
      rw [EncodeState.writeLast, if_neg fun hlt => (h.srcByte_lt hrun).mp hlt hsize]
      refine ⟨[a], ?_, ?_, ?_⟩
      · rw [hgroup, if_pos hsize]
        show t.dstWrite - 1 = _
        rw [hwrite, ← hlength, Nat.add_sub_cancel]
      · rw [hgroup, if_pos hsize]
        exact h.dst_srcByte hroom hrun
      · rw [hgroup, if_pos hsize]
        exact hlength
    · exact hplain ((h.srcByte_lt hrun).mpr hsize) (by rw [hgroup, if_neg hsize])

/-- Where the last run is empty but a byte was read before it, that byte is taken for the one to save
and the code is not counted. -/
theorem EncodeState.Holds.writeLast_nil (h : t.Holds dst dstBufLen done [])
    (hroom : (cobs.stuffed done).length < dst.length) (hbyte : t.srcByte ≠ 0) :
    t.writeLast.dstWrite = (cobs.stuffed done).length ∧ t.writeLast.dst
      = cobs.stuffed done ++ ([t.srcByte] ++ dst.drop ((cobs.stuffed done).length + 1)) := by
  have hlt : ¬ t.srcByte < t.searchLen := by
    have hpos : t.srcByte.toNat ≠ 0 := fun h => hbyte (UInt8.toNat_inj.mp h)
    rw [h.searchLen, UInt8.lt_iff_toNat_lt, List.length_nil, code_toNat (Nat.zero_le _)]
    omega
  have hdst := h.dst
  rw [List.nil_append, List.length_nil, Nat.add_zero, ← List.drop_drop,
    List.take_append_drop] at hdst
  rw [EncodeState.writeLast, if_neg hlt]
  constructor
  · show t.dstWrite - 1 = _
    rw [h.write, List.length_nil, Nat.add_zero, Nat.add_sub_cancel]
  · show t.dst.set t.dstCodeWrite t.srcByte = _
    rw [hdst, h.codeWrite, set_append_drop _ hroom]
    rfl

/-- **`cobsr_encode` writes the encoding with the last run reduced**, where there is space for it
with the last run in full. The byte that it saves is left behind it. -/
theorem cobsrEncode_encode (hlen : dstBufLen ≤ dst.length) (src : List UInt8)
    (hfits : (cobs.encode src).length ≤ dstBufLen) : ∃ saved,
    cobsrEncode (some dst) dstBufLen (some src) = (⟨(cobs.encodeReduced src).length, encodeOk⟩,
      some (cobs.encodeReduced src ++ (saved ++ dst.drop (cobs.encode src).length))) ∧
    (cobs.encodeReduced src).length + saved.length = (cobs.encode src).length := by
  obtain ⟨done, run, h, hruns, hover, hlast, hcode⟩ := encodeLoop_fits hlen src hfits
  have hcodeWrite := h.codeWrite
  obtain ⟨saved, hwrite, hdst, hsaved⟩ := h.writeLast (by omega) hlast
  have hencode : cobs.encode src = cobs.stuffed (done ++ [run]) := by rw [Stuffing.encode, hruns]
  have hreduced : cobs.encodeReduced src = cobs.stuffed done ++ cobs.reducedGroup run :=
    Stuffing.encodeReduced_eq hruns
  refine ⟨saved, ?_, by rw [hencode, hreduced, hsaved]⟩
  rw [cobsrEncode, if_neg (Nat.not_le.mpr hcode), hover, hwrite, hdst, hencode, hreduced]
  rfl

/-- **Where the space is too short**, the status says so. What is in the buffer can be read as a
first part of the source, which is not all of it. -/
theorem cobsrEncode_overflow (hlen : dstBufLen ≤ dst.length) (src : List UInt8)
    (hfull : dstBufLen < (cobs.encode src).length) :
    ∃ w b rest, cobsrEncode (some dst) dstBufLen (some src)
        = (⟨w.length, ⟨false, true⟩⟩, some (w ++ (rest ++ dst.drop dstBufLen))) ∧
      w.length + rest.length = dstBufLen ∧ cobs.Spells w b ∧ b <+: src ∧ (src ≠ [] → b ≠ src) := by
  obtain ⟨done, run, h, hstop⟩ := encodeLoop_short hlen src hfull
  have hcodeWrite := h.codeWrite
  have hlength := length_stuffed_concat done run
  have hdone : cobs.Stuffs (cobs.stuffed done) (cobs.join done) :=
    ⟨done, (valid_concat.mp h.valid).1, rfl, rfl⟩
  rw [cobsrEncode]
  generalize encodeLoop dstBufLen src (.init dst) = t at h hstop hcodeWrite
  have hwrite := h.write
  rcases hstop with ⟨hcode, rfl, hjoin⟩ | ⟨hcode, hover, hfills, rest, hrest, rfl⟩
  · have hfills : (cobs.stuffed done).length = dstBufLen := by omega
    refine ⟨cobs.stuffed done, cobs.join done, [], ?_, hfills, hdone.spells, hjoin,
      fun hsrc heq => ?_⟩
    · rw [if_pos hcode.ge, h.dst, List.nil_append, List.length_nil, Nat.add_zero, ← List.drop_drop,
        List.take_append_drop, hfills]
      rfl
    · have := (heq ▸ hdone).length_le hsrc
      omega
  · have hstuffed : (cobs.stuffed (done ++ [run])).length = dstBufLen := by omega
    rw [if_neg (Nat.not_le.mpr hcode), hover]
    by_cases hlast : run = [] ∧ t.srcByte ≠ 0
    · -- nothing was read behind a full run, and its last byte is taken for the one to save
      obtain ⟨rfl, hbyte⟩ := hlast
      have hroom : (cobs.stuffed done).length + 1 = dstBufLen := hlength.symm.trans hstuffed
      obtain ⟨houtLen, hdst⟩ := h.writeLast_nil (by omega) hbyte
      have hclosed : cobs.join done <+: done.flatMap cobs.closed := Stuffing.join_prefix_closed done
      have hjoin : cobs.join done <+: done.flatMap cobs.closed ++ rest :=
        hclosed.trans (List.prefix_append _ rest)
      rw [List.append_nil]
      refine ⟨cobs.stuffed done, cobs.join done, [t.srcByte], ?_, hroom, hdone.spells, hjoin,
        fun _ heq => ?_⟩
      · rw [houtLen, hdst, hroom]
      · have hle := hclosed.length_le
        have hpos := List.length_pos_of_ne_nil hrest
        rw [heq, List.length_append] at hle
        omega
    · obtain ⟨saved, houtLen, hdst, hsaved⟩ := h.writeLast (by omega)
        fun hrun => by_contra fun hne => hlast ⟨hrun, hne⟩
      refine ⟨_, _, saved, ?_, hsaved.trans hstuffed, Stuffing.spells_reducedGroup h.valid,
        List.prefix_append _ _, fun _ heq => hrest (List.self_eq_append_right.mp heq)⟩
      rw [houtLen, hdst, hstuffed]

/-- Three bytes of space for three bytes. -/
theorem cobsrEncode_overflow_three :
    let src : List UInt8 := [1, 0, 2]
    ∃ w b rest, cobsrEncode (some [9, 9, 9, 9]) 3 (some src)
        = (⟨w.length, ⟨false, true⟩⟩, some (w ++ (rest ++ [9]))) ∧
      w.length + rest.length = 3 ∧ cobs.Spells w b ∧ b <+: src ∧ (src ≠ [] → b ≠ src) := by
  intro src
  exact @cobsrEncode_overflow [9, 9, 9, 9] 3 (by decide) src (by decide)

/-! ## Together -/

/-- **The round trip** with the buffers that the header asks for. What is encoded has no zero byte in
it, and is the plain encoding or one byte shorter. -/
theorem cobsrEncode_cobsrDecode {dst' src : List UInt8} {dstBufLen' : Nat} (hsrc : src ≠ [])
    (hlen : dstBufLen ≤ dst.length) (hroom : encodeDstBufLenMax src.length ≤ dstBufLen)
    (hlen' : dstBufLen' ≤ dst'.length) : ∃ w rest,
    cobsrEncode (some dst) dstBufLen (some src) = (⟨w.length, encodeOk⟩, some (w ++ rest)) ∧
      0 ∉ w ∧ w.length ≤ (cobs.encode src).length ∧ (cobs.encode src).length ≤ w.length + 1 ∧
      (src.length ≤ dstBufLen' → cobsrDecode (some dst') dstBufLen' (some w)
          = (⟨src.length, decodeOk⟩, some (src ++ dst'.drop src.length))) := by
  have hmax := length_encode_le hsrc
  obtain ⟨saved, hresult, hsaved⟩ := cobsrEncode_encode hlen src (by omega)
  have hspells := Stuffing.spells_encodeReduced (s := cobs) src
  have hlength : (cobs.encode src).length ≤ (cobs.encodeReduced src).length + 1 := by
    rcases List.eq_nil_or_concat' (cobs.runs [] src) with hnil | ⟨init, run, hruns⟩
    · exact absurd hnil (Stuffing.runs_ne_nil _ _)
    · have := Stuffing.length_encodeReduced hruns
      split_ifs at this <;> omega
  refine ⟨cobs.encodeReduced src, _, hresult, hspells.notMem, by omega, hlength, fun hfits => ?_⟩
  rw [cobsrDecode_spells hlen' hspells, Nat.min_eq_left hfits, List.take_of_length_le hfits,
    decide_eq_false (Nat.not_lt.mpr hfits)]
  rfl

/-- Three bytes whose last one takes the place of its code, and back. -/
theorem cobsrEncode_cobsrDecode_three : ∃ w rest,
    cobsrEncode (some [9, 9, 9, 9, 9]) 5 (some [1, 0, 5]) = (⟨w.length, encodeOk⟩, some (w ++ rest)) ∧
      0 ∉ w ∧ w.length ≤ (cobs.encode [1, 0, 5]).length ∧
      (cobs.encode [1, 0, 5]).length ≤ w.length + 1 ∧
      (3 ≤ 3 → cobsrDecode (some [7, 7, 7, 7]) 3 (some w)
          = (⟨3, decodeOk⟩, some ([1, 0, 5] ++ [7]))) :=
  @cobsrEncode_cobsrDecode [9, 9, 9, 9, 9] 5 [7, 7, 7, 7] [1, 0, 5] 3 (by decide) (by decide)
    (by decide) (by decide)

end EmbeddedTestbench.Cobs
