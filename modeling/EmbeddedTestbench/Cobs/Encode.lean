import EmbeddedTestbench.Lib.Stuffing

/-!
# `cobs_encode` (`cobs.c`)

The encoder writes as it reads. The place of the code of the current run is kept free until the run
ends, and the space in the destination is checked once a byte. Pointers into the destination are
offsets from `dst_buf_ptr`, and `dst` is the memory from there on, which may go on past
`dst_buf_len`. `cobsr_encode` has the same loop.

Headlines:
* **`encodeLoop_spec`**: what the loop has written when it ends, and when it ran out of space.
* **`cobsEncode_encode`**, **`cobsEncode_overflow`**: what `cobs_encode` returns and leaves in the
  destination.
-/

namespace EmbeddedTestbench.Cobs

open EmbeddedTestbench.Lib

/-- The stuffing of COBS: zero is the delimiter, and the code of a run is its length plus one. -/
def cobs : Stuffing UInt8 where
  delimiter := 0
  maxRun := 254
  code n := UInt8.ofNat (n + 1)
  size a := a.toNat - 1
  maxRun_pos := by decide
  code_ne n hn h := by
    have := congrArg UInt8.toNat h
    rw [UInt8.toNat_ofNat', Nat.mod_eq_of_lt (by omega)] at this
    exact absurd this (Nat.succ_ne_zero n)
  size_code n hn := by
    rw [UInt8.toNat_ofNat', Nat.mod_eq_of_lt (by omega)]
    rfl
  code_size a ha := by
    have hpos : a.toNat ≠ 0 := fun h => ha (UInt8.toNat_inj.mp h)
    rw [← UInt8.toNat_inj, UInt8.toNat_ofNat', Nat.sub_add_cancel (by omega),
      Nat.mod_eq_of_lt a.toNat_lt]
  size_le a _ := by
    have := a.toNat_lt
    omega

/-! ## Definitions -/

/-- The bits of `cobs_encode_status`. -/
structure EncodeStatus where
  nullPointer : Bool
  outBufferOverflow : Bool
  deriving DecidableEq, Repr

/-- `COBS_ENCODE_OK`. -/
def encodeOk : EncodeStatus := ⟨false, false⟩

/-- `cobs_encode_result`. -/
structure EncodeResult where
  outLen : Nat
  status : EncodeStatus
  deriving DecidableEq, Repr

/-- The destination and the local variables of the loop. -/
structure EncodeState where
  dst : List UInt8
  dstCodeWrite : Nat
  dstWrite : Nat
  srcByte : UInt8
  searchLen : UInt8
  overflow : Bool
  deriving DecidableEq, Repr

/-- Before the loop. -/
def EncodeState.init (dst : List UInt8) : EncodeState := ⟨dst, 0, 1, 0, 1, false⟩

/-- The code of the run is written, and the next byte is kept for the code of the next run. -/
def EncodeState.writeCode (s : EncodeState) : EncodeState :=
  { s with
    dst := s.dst.set s.dstCodeWrite s.searchLen
    dstCodeWrite := s.dstWrite
    dstWrite := s.dstWrite + 1
    searchLen := 1 }

/-- A byte that is not zero is copied. -/
def EncodeState.writeByte (s : EncodeState) (srcByte : UInt8) : EncodeState :=
  { s with
    srcByte
    dst := s.dst.set s.dstWrite srcByte
    dstWrite := s.dstWrite + 1
    searchLen := s.searchLen + 1 }

/-- The `for (;;)` over the source bytes, which ends where they end. -/
def encodeLoop (dstBufLen : Nat) : List UInt8 → EncodeState → EncodeState
  | [], s => s
  | srcByte :: src, s =>
    if dstBufLen ≤ s.dstWrite then { s with overflow := true }
    else if srcByte = 0 then encodeLoop dstBufLen src { s.writeCode with srcByte }
    else
      let s := s.writeByte srcByte
      if src = [] then s
      else if s.searchLen = 0xFF then encodeLoop dstBufLen src s.writeCode
      else encodeLoop dstBufLen src s

/-- `cobs_encode`; `none` is `NULL`, and `src_len` is the length of the source. -/
def cobsEncode (dst : Option (List UInt8)) (dstBufLen : Nat) (src : Option (List UInt8)) :
    EncodeResult × Option (List UInt8) :=
  match dst, src with
  | some dst, some src =>
    let s := encodeLoop dstBufLen src (.init dst)
    if dstBufLen ≤ s.dstCodeWrite then (⟨dstBufLen, ⟨false, true⟩⟩, some s.dst)
    else (⟨s.dstWrite, ⟨false, s.overflow⟩⟩, some (s.dst.set s.dstCodeWrite s.searchLen))
  | dst, _ => (⟨0, ⟨true, false⟩⟩, dst)

/-! ## The loop -/

/-- The state when the runs `done` are written and `run` is read: a byte is kept free for its code.
Behind it the destination is as it was. -/
structure EncodeState.Holds (dst : List UInt8) (dstBufLen : Nat) (done : List (List UInt8))
    (run : List UInt8) (s : EncodeState) : Prop where
  codeWrite : s.dstCodeWrite = (cobs.stuffed done).length
  write : s.dstWrite = (cobs.stuffed done).length + 1 + run.length
  searchLen : s.searchLen = cobs.code run.length
  last : ∀ a, run.getLast? = some a → s.srcByte = a
  valid : cobs.Valid (done ++ [run])
  room : (cobs.stuffed done).length ≤ dstBufLen ∧ (run ≠ [] → s.dstWrite ≤ dstBufLen)
  dst : s.dst = cobs.stuffed done ++ ((dst.drop (cobs.stuffed done).length).take 1 ++
    (run ++ dst.drop ((cobs.stuffed done).length + 1 + run.length)))

variable {dst : List UInt8} {dstBufLen : Nat} {done : List (List UInt8)} {run : List UInt8}
  {s : EncodeState}

theorem holds_init (dst : List UInt8) (dstBufLen : Nat) :
    (EncodeState.init dst).Holds dst dstBufLen [] [] where
  codeWrite := rfl
  write := rfl
  searchLen := rfl
  last := fun _ h => absurd h (by simp)
  valid := List.forall_mem_singleton.mpr ⟨List.not_mem_nil, Nat.zero_le _⟩
  room := ⟨Nat.zero_le _, fun h => absurd rfl h⟩
  dst := (List.take_append_drop 1 dst).symm

theorem valid_concat {rs : List (List UInt8)} {run : List UInt8} :
    cobs.Valid (rs ++ [run]) ↔ cobs.Valid rs ∧ 0 ∉ run ∧ run.length ≤ 254 := by
  rw [Stuffing.Valid, List.forall_mem_append, List.forall_mem_singleton]
  rfl

/-- A byte written where the destination is still as it was. -/
theorem set_append_drop (front : List UInt8) {dst : List UInt8} {k : Nat} (hk : k < dst.length)
    (b : UInt8) : (front ++ dst.drop k).set front.length b = front ++ b :: dst.drop (k + 1) := by
  rw [List.set_append_right _ _ (Nat.le_refl _), Nat.sub_self, List.drop_eq_getElem_cons hk,
    List.set_cons_zero]

theorem EncodeState.Holds.writeByte (h : s.Holds dst dstBufLen done run)
    (hlen : dstBufLen ≤ dst.length) (hroom : s.dstWrite < dstBufLen) (hshort : run.length < 254)
    {b : UInt8} (hb : b ≠ 0) : (s.writeByte b).Holds dst dstBufLen done (run ++ [b]) := by
  have hwrite := h.write
  have hkept : ((dst.drop (cobs.stuffed done).length).take 1).length = 1 :=
    List.length_take_of_le (by rw [List.length_drop]; omega)
  obtain ⟨hdone, hrun⟩ := valid_concat.mp h.valid
  refine ⟨h.codeWrite, ?_, ?_, ?_, valid_concat.mpr ⟨hdone, ?_, ?_⟩, ⟨h.room.1, fun _ => hroom⟩, ?_⟩
  · show s.dstWrite + 1 = _
    rw [List.length_append, List.length_singleton]
    omega
  · show s.searchLen + 1 = _
    rw [h.searchLen, List.length_append, List.length_singleton]
    exact (UInt8.ofNat_add (run.length + 1) 1).symm
  · intro a ha
    rw [List.getLast?_concat] at ha
    exact Option.some.inj ha
  · rw [List.mem_append, List.mem_singleton, not_or]
    exact ⟨hrun.1, fun h => hb h.symm⟩
  · rw [List.length_append, List.length_singleton]
    exact hshort
  · show s.dst.set s.dstWrite b = _
    have hfront : (cobs.stuffed done ++ ((dst.drop (cobs.stuffed done).length).take 1 ++ run)).length
        = s.dstWrite := by
      rw [List.length_append, List.length_append, hkept, hwrite]
      omega
    have hset := set_append_drop
      (cobs.stuffed done ++ ((dst.drop (cobs.stuffed done).length).take 1 ++ run))
      (show s.dstWrite < dst.length by omega) b
    rw [hfront, List.append_assoc, List.append_assoc] at hset
    rw [h.dst, ← hwrite, hset, List.length_append, List.length_singleton, ← Nat.add_assoc, ← hwrite]
    simp only [List.append_assoc, List.singleton_append]

theorem EncodeState.Holds.dst_code (h : s.Holds dst dstBufLen done run)
    (hroom : (cobs.stuffed done).length < dst.length) :
    s.dst.set s.dstCodeWrite s.searchLen = cobs.stuffed (done ++ [run]) ++
      dst.drop (cobs.stuffed (done ++ [run])).length := by
  have htake : (dst.drop (cobs.stuffed done).length).take 1
      = [dst[(cobs.stuffed done).length]] := by
    rw [List.drop_eq_getElem_cons hroom]
    rfl
  have hstuffed : cobs.stuffed (done ++ [run]) = cobs.stuffed done ++ cobs.code run.length :: run := by
    rw [Stuffing.stuffed_append, Stuffing.stuffed_cons]
    exact congrArg (fun x => cobs.stuffed done ++ cobs.code run.length :: x) (List.append_nil run)
  have hlength : (cobs.stuffed done ++ cobs.code run.length :: run).length
      = (cobs.stuffed done).length + 1 + run.length := by
    rw [List.length_append, List.length_cons]
    omega
  rw [h.dst, htake, h.codeWrite, h.searchLen, List.set_append_right _ _ (Nat.le_refl _), Nat.sub_self,
    hstuffed, hlength, List.append_assoc]
  rfl

theorem EncodeState.Holds.writeCode (h : s.Holds dst dstBufLen done run)
    (hlen : dstBufLen ≤ dst.length) (hroom : s.dstWrite ≤ dstBufLen) :
    s.writeCode.Holds dst dstBufLen (done ++ [run]) [] := by
  have hwrite := h.write
  have hstuffed : (cobs.stuffed (done ++ [run])).length = s.dstWrite := by
    rw [Stuffing.stuffed_append, Stuffing.stuffed_cons, List.length_append, List.length_cons,
      List.length_append, hwrite]
    show (cobs.stuffed done).length + (run.length + 0 + 1) = _
    omega
  refine ⟨hstuffed.symm, by rw [hstuffed]; rfl, rfl, fun _ ha => absurd ha (by simp),
    valid_concat.mpr ⟨h.valid, List.not_mem_nil, Nat.zero_le _⟩,
    ⟨by omega, fun hne => absurd rfl hne⟩, ?_⟩
  show s.dst.set s.dstCodeWrite s.searchLen = _
  rw [h.dst_code (by omega), List.nil_append, List.length_nil, Nat.add_zero, ← List.drop_drop,
    List.take_append_drop]

theorem EncodeState.Holds.srcByte_zero (h : s.Holds dst dstBufLen done []) :
    { s with srcByte := 0 }.Holds dst dstBufLen done [] :=
  ⟨h.codeWrite, h.write, h.searchLen, fun _ ha => absurd ha (by simp), h.valid, h.room, h.dst⟩

/-- The loop is done, or it stopped for want of space with `rest` unread. -/
structure EncodeState.Stopped (dst : List UInt8) (dstBufLen : Nat) (rs : List (List UInt8))
    (done : List (List UInt8)) (run rest : List UInt8) (s : EncodeState) : Prop where
  holds : s.Holds dst dstBufLen done run
  runs : done ++ cobs.runs run rest = rs
  short : run.length < 254 ∨ rest = []
  ended : s.overflow = false → rest = [] ∧ (run = [] → s.srcByte = 0)
  full : s.overflow = true → rest ≠ [] ∧ dstBufLen ≤ s.dstWrite

/-- **The loop writes the runs**, one after the other, until the source ends or the space does. -/
theorem encodeLoop_spec (hlen : dstBufLen ≤ dst.length) : ∀ (src : List UInt8)
    {done : List (List UInt8)} {run : List UInt8} {s : EncodeState},
    s.Holds dst dstBufLen done run → s.overflow = false →
    (src = [] → run = [] → s.srcByte = 0) → run.length < 254 ∨ src = [] →
    ∃ done' run' rest, (encodeLoop dstBufLen src s).Stopped dst dstBufLen
      (done ++ cobs.runs run src) done' run' rest
  | [], done, run, s, h, hover, hlast, hshort =>
    ⟨done, run, [], h, rfl, hshort, fun _ => ⟨rfl, hlast rfl⟩,
      fun hfull => absurd (hover.symm.trans hfull) (by simp)⟩
  | srcByte :: src, done, run, s, h, hover, hlast, hshort => by
    have hlt : run.length < 254 := hshort.resolve_right (List.cons_ne_nil _ _)
    rw [encodeLoop]
    dsimp only
    by_cases hfull : dstBufLen ≤ s.dstWrite
    · rw [if_pos hfull]
      refine ⟨done, run, srcByte :: src, ⟨h.codeWrite, h.write, h.searchLen, h.last, h.valid, h.room,
        h.dst⟩, rfl, hshort, fun hno => absurd hno (by simp), fun _ => ⟨List.cons_ne_nil _ _, hfull⟩⟩
    · rw [if_neg hfull]
      by_cases hzero : srcByte = 0
      · subst hzero
        have hruns : cobs.runs run (0 :: src) = run :: cobs.runs [] src := if_pos rfl
        have hnext := (h.writeCode hlen (by omega)).srcByte_zero
        rw [if_pos rfl, hruns, List.append_cons]
        exact encodeLoop_spec hlen src hnext hover (fun _ _ => rfl) (Or.inl (by decide))
      · have hnext := h.writeByte hlen (Nat.not_le.mp hfull) hlt hzero
        have hruns : cobs.runs run (srcByte :: src)
            = if src ≠ [] ∧ run.length + 1 = 254 then (run ++ [srcByte]) :: cobs.runs [] src
              else cobs.runs (run ++ [srcByte]) src := if_neg hzero
        have hcode : (s.writeByte srcByte).searchLen = 0xFF ↔ run.length + 1 = 254 := by
          rw [hnext.searchLen, List.length_append, List.length_singleton, ← UInt8.toNat_inj]
          show (run.length + 1 + 1) % 256 = 255 ↔ _
          omega
        have hne : run ++ [srcByte] ≠ [] := List.concat_ne_nil _ _
        rw [if_neg hzero, hruns]
        by_cases hsrc : src = []
        · subst hsrc
          rw [if_pos rfl, if_neg fun h => h.1 rfl]
          exact ⟨done, run ++ [srcByte], [], hnext, rfl, Or.inr rfl,
            fun _ => ⟨rfl, fun h => absurd h hne⟩, fun hno => absurd (hover.symm.trans hno) (by simp)⟩
        · rw [if_neg hsrc]
          by_cases hlong : run.length + 1 = 254
          · rw [if_pos (hcode.mpr hlong), if_pos ⟨hsrc, hlong⟩, List.append_cons]
            exact encodeLoop_spec hlen src (hnext.writeCode hlen (hnext.room.2 hne)) hover
              (fun h => absurd h hsrc) (Or.inl (by decide))
          · rw [if_neg (mt hcode.mp hlong), if_neg fun h => hlong h.2]
            refine encodeLoop_spec hlen src hnext hover (fun h => absurd h hsrc) (Or.inl ?_)
            rw [List.length_append, List.length_singleton]
            omega

/-! ## The result -/

/-- The loop from its start. -/
theorem encodeLoop_init (hlen : dstBufLen ≤ dst.length) (src : List UInt8) :
    ∃ done run rest, (encodeLoop dstBufLen src (.init dst)).Stopped dst dstBufLen
      (cobs.runs [] src) done run rest :=
  encodeLoop_spec hlen src (holds_init dst dstBufLen) rfl (fun _ _ => rfl) (Or.inl (by decide))

theorem length_stuffed_concat (done : List (List UInt8)) (run : List UInt8) :
    (cobs.stuffed (done ++ [run])).length = (cobs.stuffed done).length + 1 + run.length := by
  rw [Stuffing.stuffed_append, Stuffing.stuffed_cons, List.length_append, List.length_cons,
    List.length_append]
  show (cobs.stuffed done).length + (run.length + 0 + 1) = _
  omega

/-- Where the space ran out, the encoding does not fit. -/
theorem EncodeState.Stopped.lt_of_overflow {rs : List (List UInt8)} {rest : List UInt8}
    (h : s.Stopped dst dstBufLen rs done run rest) (hover : s.overflow = true) :
    dstBufLen < (cobs.stuffed rs).length := by
  obtain ⟨hrest, hfull⟩ := h.full hover
  obtain ⟨hdone, hrun, hmax⟩ := valid_concat.mp h.holds.valid
  have hlt : run.length < 254 := h.short.resolve_right hrest
  have hvalid : cobs.Valid (cobs.runs run rest) := Stuffing.valid_runs rest hrun (Or.inl hlt)
  have hlength := Stuffing.length_stuffed hvalid (Stuffing.runs_ne_nil _ _)
  have hpos := List.length_pos_of_ne_nil hrest
  have hwrite := h.holds.write
  rw [Stuffing.join_runs rest (Or.inl hlt), List.length_append] at hlength
  rw [← h.runs, Stuffing.stuffed_append, List.length_append]
  omega

/-- Where the encoding fits, the loop ends with the last run read, and there is space for its
code. -/
theorem encodeLoop_fits (hlen : dstBufLen ≤ dst.length) (src : List UInt8)
    (hfits : (cobs.encode src).length ≤ dstBufLen) : ∃ done run,
    let s := encodeLoop dstBufLen src (.init dst)
    s.Holds dst dstBufLen done run ∧ cobs.runs [] src = done ++ [run] ∧ s.overflow = false ∧
      (run = [] → s.srcByte = 0) ∧ s.dstCodeWrite < dstBufLen := by
  obtain ⟨done, run, rest, h⟩ := encodeLoop_init hlen src
  generalize encodeLoop dstBufLen src (.init dst) = s at h
  have hover : s.overflow = false := by
    rw [Bool.eq_false_iff]
    intro hover
    have hlt := h.lt_of_overflow hover
    rw [← Stuffing.encode] at hlt
    omega
  obtain ⟨rfl, hlast⟩ := h.ended hover
  have hruns : cobs.runs [] src = done ++ [run] := by
    rw [← h.runs, Stuffing.runs]
  have hlength := length_stuffed_concat done run
  have hcodeWrite := h.holds.codeWrite
  rw [Stuffing.encode, hruns] at hfits
  exact ⟨done, run, h.holds, hruns, hover, hlast, by omega⟩

/-- Where it does not fit, the loop ends with something unread, or without space for a code. -/
theorem encodeLoop_short (hlen : dstBufLen ≤ dst.length) (src : List UInt8)
    (hfull : dstBufLen < (cobs.encode src).length) : ∃ done run,
    let s := encodeLoop dstBufLen src (.init dst)
    s.Holds dst dstBufLen done run ∧
      (s.dstCodeWrite = dstBufLen ∧ run = [] ∧ cobs.join done <+: src ∨
        s.dstCodeWrite < dstBufLen ∧ s.overflow = true ∧ s.dstWrite = dstBufLen ∧
          ∃ rest, rest ≠ [] ∧ src = done.flatMap cobs.closed ++ run ++ rest) := by
  obtain ⟨done, run, rest, h⟩ := encodeLoop_init hlen src
  generalize encodeLoop dstBufLen src (.init dst) = s at h
  have hcodeWrite := h.holds.codeWrite
  have hwrite := h.holds.write
  have hroom := h.holds.room
  have hjoin : cobs.join (done ++ cobs.runs run rest) = src := by
    rw [h.runs, Stuffing.join_encode]
  refine ⟨done, run, h.holds, ?_⟩
  by_cases hcode : dstBufLen ≤ s.dstCodeWrite
  · -- there is no space for the code of the run, so that nothing of the run was read
    left
    have hrun : run = [] := by
      by_contra hne
      have := hroom.2 hne
      omega
    refine ⟨by omega, hrun, ?_⟩
    rw [← hjoin]
    exact Stuffing.join_prefix_append _ _
  · right
    have hlength := length_stuffed_concat done run
    have hover : s.overflow = true := by
      by_contra hno
      obtain ⟨rfl, -⟩ := h.ended (Bool.eq_false_iff.mpr hno)
      rw [Stuffing.encode, ← h.runs, Stuffing.runs, hlength] at hfull
      have hrun : run ≠ [] := by
        rintro rfl
        rw [List.length_nil] at hfull
        omega
      have := hroom.2 hrun
      omega
    obtain ⟨hrest, hfullAt⟩ := h.full hover
    have hfills : s.dstWrite = dstBufLen := by
      by_cases hrun : run = []
      · rw [hrun, List.length_nil] at hwrite
        omega
      · have := hroom.2 hrun
        omega
    have hlt : run.length < 254 := h.short.resolve_right hrest
    refine ⟨by omega, hover, hfills, rest, hrest, ?_⟩
    rw [← hjoin, Stuffing.join_append done (Stuffing.runs_ne_nil _ _),
      Stuffing.join_runs rest (Or.inl hlt), List.append_assoc]

/-- **`cobs_encode` writes the encoding** where there is space for it, and nothing behind it. -/
theorem cobsEncode_encode (hlen : dstBufLen ≤ dst.length) (src : List UInt8)
    (hfits : (cobs.encode src).length ≤ dstBufLen) :
    cobsEncode (some dst) dstBufLen (some src) = (⟨(cobs.encode src).length, encodeOk⟩,
      some (cobs.encode src ++ dst.drop (cobs.encode src).length)) := by
  obtain ⟨done, run, h, hruns, hover, -, hcode⟩ := encodeLoop_fits hlen src hfits
  have hlength := length_stuffed_concat done run
  have hcodeWrite := h.codeWrite
  have hwrite := h.write
  rw [cobsEncode, if_neg (Nat.not_le.mpr hcode), h.dst_code (by omega), hover, Stuffing.encode,
    hruns, hlength, hwrite]
  rfl

/-- **Where the space is too short**, the status says so. What is in the buffer fills it, and can be
read as a first part of the source, which is not all of it. -/
theorem cobsEncode_overflow (hlen : dstBufLen ≤ dst.length) (src : List UInt8)
    (hfull : dstBufLen < (cobs.encode src).length) :
    ∃ w b, cobsEncode (some dst) dstBufLen (some src)
        = (⟨dstBufLen, ⟨false, true⟩⟩, some (w ++ dst.drop dstBufLen)) ∧
      w.length = dstBufLen ∧ cobs.Stuffs w b ∧ b <+: src ∧ (src ≠ [] → b ≠ src) := by
  obtain ⟨done, run, h, hstop⟩ := encodeLoop_short hlen src hfull
  have hcodeWrite := h.codeWrite
  have hwrite := h.write
  have hlength := length_stuffed_concat done run
  rw [cobsEncode]
  rcases hstop with ⟨hcode, rfl, hjoin⟩ | ⟨hcode, hover, hfills, rest, hrest, rfl⟩
  · have hfills : (cobs.stuffed done).length = dstBufLen := by omega
    have hstuffs : cobs.Stuffs (cobs.stuffed done) (cobs.join done) :=
      ⟨done, (valid_concat.mp h.valid).1, rfl, rfl⟩
    refine ⟨cobs.stuffed done, cobs.join done, ?_, hfills, hstuffs, hjoin, fun hsrc heq => ?_⟩
    · rw [if_pos hcode.ge, h.dst, List.nil_append, List.length_nil, Nat.add_zero, ← List.drop_drop,
        List.take_append_drop, hfills]
    · have := (heq ▸ hstuffs).length_le hsrc
      omega
  · have hstuffed : (cobs.stuffed (done ++ [run])).length = dstBufLen := by omega
    refine ⟨cobs.stuffed (done ++ [run]), cobs.join (done ++ [run]), ?_, hstuffed,
      ⟨done ++ [run], h.valid, rfl, rfl⟩, ?_, ?_⟩
    · rw [if_neg (Nat.not_le.mpr hcode), h.dst_code (by omega), hover, hfills, hstuffed]
    · rw [Stuffing.join_append done (List.cons_ne_nil _ _)]
      exact List.prefix_append _ _
    · rw [Stuffing.join_append done (List.cons_ne_nil _ _)]
      exact fun _ heq => hrest (List.self_eq_append_right.mp heq)

/-- Three bytes of space for three bytes. -/
theorem cobsEncode_overflow_three :
    let src : List UInt8 := [1, 0, 2]
    ∃ w b, cobsEncode (some [9, 9, 9, 9]) 3 (some src) = (⟨3, ⟨false, true⟩⟩, some (w ++ [9])) ∧
      w.length = 3 ∧ cobs.Stuffs w b ∧ b <+: src ∧ (src ≠ [] → b ≠ src) := by
  intro src
  exact @cobsEncode_overflow [9, 9, 9, 9] 3 (by decide) src (by decide)

end EmbeddedTestbench.Cobs
