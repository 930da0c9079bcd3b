import EmbeddedTestbench.Lib.Base128
import EmbeddedTestbench.Nanopb.Stream

/-!
# Varints, tags and skips (`pb_decode.c`)

`pb_decode_varint32_eof`, `pb_decode_varint`, `pb_decode_tag` and `pb_skip_field` as the code
computes them. A failed read leaves the stream where the code leaves it, since
`decode_unionmessage_type` goes on from there. `bitpos` is a `uint_fast8_t`, one byte on the
glibc targets the Makefile builds for, so it wraps on a varint of more than 36 bytes.

Every loop reads one byte a turn; the fuel is `bytes_left`, and a turn without fuel is the turn
on which `pb_readbyte` fails.

Headlines:
* **`pbDecodeVarint32_reads`**: a base-128 varint of any length whose value is below `2 ^ 32` is
  decoded to its value, padding included.
* **`pbDecodeVarint_encode`**: the 64-bit decoder on the shortest varint of a value.
* **`pbDecodeTag_prefixReader`**, **`pbSkipField_prefixReader`**: the readers stay inside their
  window, also when they fail.
* `pbDecodeTag_consumes`: a key takes a byte at least.
-/

namespace EmbeddedTestbench.Nanopb

open IStream EmbeddedTestbench.Lib

/-! ## Definitions -/

/-- `PB_WT_VARINT`. -/
def wtVarint : Nat := 0
/-- `PB_WT_64BIT`. -/
def wt64bit : Nat := 1
/-- `PB_WT_STRING`. -/
def wtString : Nat := 2
/-- `PB_WT_32BIT`. -/
def wt32bit : Nat := 5

/-- One byte of the multibyte case of `pb_decode_varint32_eof` at `bitpos`: the new `result`, or
`none` for "varint overflow". -/
def varint32Step (bitpos : UInt8) (result : UInt32) (byte : UInt8) : Option UInt32 :=
  if 32 ≤ bitpos then
    let signExtension : UInt8 := if bitpos < 63 then 0xFF else 0x01
    if byte &&& 0x7F ≠ 0 ∧ (result >>> 31 = 0 ∨ byte ≠ signExtension) then none else some result
  else some (result ||| ((byte &&& 0x7F).toUInt32 <<< bitpos.toUInt32))

/-- The `do … while` of the multibyte case, and the check of the last byte after it. -/
def varint32Loop : Nat → IStream → UInt8 → UInt32 → Option UInt32 × IStream
  | 0, s, _, _ => (none, s.setError "end-of-stream")
  | n + 1, s, bitpos, result =>
    match pbReadbyte s with
    | (none, s) => (none, s)
    | (some byte, s) =>
      match varint32Step bitpos result byte with
      | none => (none, s.setError "varint overflow")
      | some result =>
        if byte &&& 0x80 ≠ 0 then varint32Loop n s (bitpos + 7) result
        else if bitpos + 7 = 35 ∧ byte &&& 0x70 ≠ 0 then (none, s.setError "varint overflow")
        else (some result, s)

/-- `pb_decode_varint32_eof`; a failure carries the flag `*eof`. -/
def pbDecodeVarint32Eof (s : IStream) : Except Bool UInt32 × IStream :=
  match pbReadbyte s with
  | (none, s) => (.error (s.bytesLeft == 0), s)
  | (some byte, s) =>
    if byte &&& 0x80 = 0 then (.ok byte.toUInt32, s)
    else
      match varint32Loop s.bytesLeft s 7 (byte &&& 0x7F).toUInt32 with
      | (some result, s) => (.ok result, s)
      | (none, s) => (.error false, s)

/-- `pb_decode_varint32`. -/
def pbDecodeVarint32 (s : IStream) : Option UInt32 × IStream :=
  let (r, s) := pbDecodeVarint32Eof s
  (r.toOption, s)

/-- The `do … while` of `pb_decode_varint`. -/
def varintLoop : Nat → IStream → UInt8 → UInt64 → Option UInt64 × IStream
  | 0, s, bitpos, _ =>
    if 64 ≤ bitpos then (none, s.setError "varint overflow")
    else (none, s.setError "end-of-stream")
  | n + 1, s, bitpos, result =>
    if 64 ≤ bitpos then (none, s.setError "varint overflow")
    else
      match pbReadbyte s with
      | (none, s) => (none, s)
      | (some byte, s) =>
        let result := result ||| ((byte &&& 0x7F).toUInt64 <<< bitpos.toUInt64)
        if byte &&& 0x80 ≠ 0 then varintLoop n s (bitpos + 7) result else (some result, s)

/-- `pb_decode_varint`. -/
def pbDecodeVarint (s : IStream) : Option UInt64 × IStream := varintLoop s.bytesLeft s 0 0

/-- What `pb_decode_tag` answers: the wire type and the tag, or `false` with its `eof` flag. -/
inductive TagRead where
  | field (wireType tag : Nat)
  | stop (eof : Bool)
  deriving DecidableEq, Repr

/-- `pb_decode_tag`: a zero key ends the message. -/
def pbDecodeTag (s : IStream) : TagRead × IStream :=
  match pbDecodeVarint32Eof s with
  | (.error eof, s) => (.stop eof, s)
  | (.ok temp, s) =>
    if temp = 0 then (.stop true, s)
    else (.field (temp &&& 7).toNat (temp >>> 3).toNat, s)

/-- The `do … while` of `pb_skip_varint`. -/
def skipVarintLoop : Nat → IStream → Bool × IStream
  | 0, s => (false, s.setError "end-of-stream")
  | n + 1, s =>
    match pbRead s 1 with
    | (none, s) => (false, s)
    | (some buf, s) => if buf.headD 0 &&& 0x80 ≠ 0 then skipVarintLoop n s else (true, s)

/-- `pb_skip_varint`. -/
def pbSkipVarint (s : IStream) : Bool × IStream := skipVarintLoop s.bytesLeft s

/-- `pb_read(stream, NULL, count)`. -/
def pbSkip (s : IStream) (count : Nat) : Bool × IStream :=
  let (buf, s) := pbRead s count
  (buf.isSome, s)

/-- `pb_skip_string`. -/
def pbSkipString (s : IStream) : Bool × IStream :=
  match pbDecodeVarint32 s with
  | (none, s) => (false, s)
  | (some length, s) => pbSkip s length.toNat

/-- `pb_skip_field`. -/
def pbSkipField (s : IStream) (wireType : Nat) : Bool × IStream :=
  if wireType = wtVarint then pbSkipVarint s
  else if wireType = wt64bit then pbSkip s 8
  else if wireType = wtString then pbSkipString s
  else if wireType = wt32bit then pbSkip s 4
  else (false, s.setError "invalid wire_type")

/-! ## The bits of a byte -/

theorem forall_byte {p : UInt8 → Prop} (h : ∀ n : Fin 256, p (UInt8.ofNat n)) (b : UInt8) : p b := by
  have hb := h ⟨b.toNat, b.toNat_lt⟩
  rwa [UInt8.ofNat_toNat] at hb

theorem and_80_eq_zero (b : UInt8) : b &&& 0x80 = 0 ↔ b.toNat < 128 := by
  revert b
  exact forall_byte (by decide +kernel)

theorem and_80_ne_zero {b : UInt8} (h : 128 ≤ b.toNat) : b &&& 0x80 ≠ 0 := fun h' =>
  absurd ((and_80_eq_zero b).mp h') (by omega)

theorem not_and_80_ne_zero {b : UInt8} (h : b.toNat < 128) : ¬ b &&& 0x80 ≠ 0 :=
  not_not.mpr ((and_80_eq_zero b).mpr h)

theorem toNat_and_7F (b : UInt8) : (b &&& 0x7F).toNat = b.toNat % 128 := by
  revert b
  exact forall_byte (by decide +kernel)

theorem and_70_eq_zero (b : UInt8) : b &&& 0x70 = 0 ↔ b.toNat % 128 < 16 := by
  revert b
  exact forall_byte (by decide +kernel)

theorem and_7F_eq_zero {b : UInt8} (h : b.toNat % 128 = 0) : b &&& 0x7F = 0 := by
  rw [← UInt8.toNat_inj, toNat_and_7F, h]
  rfl

/-! ## Decoding a 32-bit varint -/

/-- Zero digits change nothing, at any `bitpos`: this is what padding is made of. -/
theorem varint32Loop_zero {r t : List UInt8} {e : Option String} : ∀ {u : List UInt8},
    Base128.IsVarint u → Base128.value u = 0 → ∀ (bitpos : UInt8) (result : UInt32),
      varint32Loop (u ++ r).length (window (u ++ r) t e) bitpos result
        = (some result, window r t e)
  | [], hu, _, _, _ => hu.elim
  | b :: bs, hu, hv, bitpos, result => by
    simp only [Base128.value] at hv
    have h7F : b &&& 0x7F = 0 := and_7F_eq_zero (by omega)
    have h70 : b &&& 0x70 = 0 := (and_70_eq_zero b).mpr (by omega)
    have hstep : varint32Step bitpos result b = some result := by
      simp [varint32Step, h7F]
    by_cases hb : b.toNat < 128
    · obtain rfl := (Base128.isVarint_small hb).mp hu
      simp [varint32Loop, pbReadbyte_cons, hstep, (and_80_eq_zero b).mpr hb, h70]
    · have h80 : b &&& 0x80 ≠ 0 := and_80_ne_zero (by omega)
      have ih := varint32Loop_zero (r := r) (t := t) (e := e)
        ((Base128.isVarint_cons (by omega)).mp hu) (by omega) (bitpos + 7) result
      simp only [List.cons_append, List.length_cons, varint32Loop, pbReadbyte_cons, hstep]
      rw [if_pos h80]
      exact ih

/-- The digit at place `i < 5` fits when the value does: its bits are new, and none is lost. -/
theorem varint32Step_digit {i : Nat} (hi : i ≤ 4) {result : UInt32} {b : UInt8}
    (hr : result.toNat < 2 ^ (7 * i)) (hfit : result.toNat + 2 ^ (7 * i) * (b.toNat % 128) < 2 ^ 32) :
    ∃ result', varint32Step (UInt8.ofNat (7 * i)) result b = some result' ∧
      result'.toNat = result.toNat + 2 ^ (7 * i) * (b.toNat % 128) := by
  have hpos : (UInt8.ofNat (7 * i)).toNat = 7 * i := by
    rw [UInt8.toNat_ofNat', Nat.mod_eq_of_lt (by omega)]
  have hlt : ¬ (32 : UInt8) ≤ UInt8.ofNat (7 * i) := by
    rw [UInt8.le_iff_toNat_le, hpos]
    change ¬ 32 ≤ 7 * i
    omega
  refine ⟨_, by rw [varint32Step, if_neg hlt], ?_⟩
  have hplace : 7 * i % 32 = 7 * i := by omega
  have hshift : (((b &&& 0x7F).toUInt32 <<< (UInt8.ofNat (7 * i)).toUInt32)).toNat
      = 2 ^ (7 * i) * (b.toNat % 128) := by
    rw [UInt32.toNat_shiftLeft, UInt8.toNat_toUInt32, UInt8.toNat_toUInt32, toNat_and_7F, hpos,
      hplace, Nat.shiftLeft_eq, Nat.mul_comm,
      Nat.mod_eq_of_lt (by omega)]
  rw [UInt32.toNat_or, hshift, Nat.or_comm, ← Nat.two_pow_add_eq_or_of_lt hr, Nat.add_comm]

theorem bitpos_succ : ∀ i ≤ 4, UInt8.ofNat (7 * i) + 7 = UInt8.ofNat (7 * (i + 1)) := by decide

theorem bitpos_last : ∀ i ≤ 4, UInt8.ofNat (7 * i) + 7 = 35 → i = 4 := by decide

/-- A digit at place `i`, and the digits behind it. -/
theorem digit_split (i d v : Nat) :
    2 ^ (7 * i) * (d + 128 * v) = 2 ^ (7 * i) * d + 2 ^ (7 * (i + 1)) * v := by
  rw [Nat.mul_add, Nat.mul_succ, Nat.pow_add, Nat.mul_assoc]

/-- A digit at place `i` stays below place `i + 1`. -/
theorem digit_lt {i n : Nat} (hn : n < 2 ^ (7 * i)) (d : Nat) :
    n + 2 ^ (7 * i) * (d % 128) < 2 ^ (7 * (i + 1)) := by
  have hd : d % 128 ≤ 127 := by omega
  have hle := Nat.mul_le_mul_left (2 ^ (7 * i)) hd
  rw [Nat.mul_succ, Nat.pow_add]
  omega

/-- The loop at place `i ≤ 4`, with the digits read so far in `result`. -/
theorem varint32Loop_reads {r t : List UInt8} {e : Option String} : ∀ {u : List UInt8},
    Base128.IsVarint u → ∀ {i : Nat}, 0 < i → i ≤ 4 → ∀ {result : UInt32},
      result.toNat < 2 ^ (7 * i) → result.toNat + 2 ^ (7 * i) * Base128.value u < 2 ^ 32 →
      ∃ result', varint32Loop (u ++ r).length (window (u ++ r) t e) (UInt8.ofNat (7 * i)) result
          = (some result', window r t e) ∧
        result'.toNat = result.toNat + 2 ^ (7 * i) * Base128.value u
  | [], hu, _, _, _, _, _, _ => hu.elim
  | b :: bs, hu, i, hi0, hi, result, hr, hfit => by
    simp only [Base128.value] at hfit ⊢
    rw [digit_split] at hfit ⊢
    obtain ⟨result', hstep, hval⟩ := varint32Step_digit (b := b) hi hr (by omega)
    have hr' : result'.toNat < 2 ^ (7 * (i + 1)) := by
      rw [hval]
      exact digit_lt hr _
    by_cases hb : b.toNat < 128
    · obtain rfl := (Base128.isVarint_small hb).mp hu
      have hlast : ¬ (UInt8.ofNat (7 * i) + 7 = 35 ∧ b &&& 0x70 ≠ 0) := by
        rintro ⟨h35, h70⟩
        obtain rfl := bitpos_last i hi h35
        exact h70 ((and_70_eq_zero b).mpr (by omega))
      refine ⟨result', ?_, by simp [Base128.value, hval]⟩
      simp only [List.cons_append, List.nil_append, List.length_cons, varint32Loop,
        pbReadbyte_cons, hstep]
      rw [if_neg (not_and_80_ne_zero hb), if_neg hlast]
    · have h80 : b &&& 0x80 ≠ 0 := and_80_ne_zero (by omega)
      have hbs := (Base128.isVarint_cons (by omega)).mp hu
      simp only [List.cons_append, List.length_cons, varint32Loop, pbReadbyte_cons, hstep]
      rw [if_pos h80, bitpos_succ i hi]
      by_cases hi4 : i = 4
      · -- the sixth byte on lies past bit 32: only zero digits fit
        have hz : Base128.value bs = 0 := by
          subst hi4
          omega
        refine ⟨result', varint32Loop_zero hbs hz _ _, by rw [hval, hz]; omega⟩
      · obtain ⟨result'', h1, h2⟩ :=
          varint32Loop_reads (r := r) (t := t) (e := e) hbs (i := i + 1) (by omega) (by omega) hr'
            (by omega)
        exact ⟨result'', h1, by omega⟩

/-- A varint whose value fits is decoded to it, with the bytes behind it untouched. -/
theorem pbDecodeVarint32Eof_reads {u : List UInt8} (hu : Base128.IsVarint u)
    (hv : Base128.value u < 2 ^ 32) :
    Reads pbDecodeVarint32Eof u (.ok (UInt32.ofNat (Base128.value u))) := by
  intro r t e
  match u, hu with
  | b :: bs, hu =>
    simp only [Base128.value] at hv ⊢
    unfold pbDecodeVarint32Eof
    rw [List.cons_append, pbReadbyte_cons]
    by_cases hb : b.toNat < 128
    · obtain rfl := (Base128.isVarint_small hb).mp hu
      have hval : b.toUInt32 = UInt32.ofNat (b.toNat % 128 + 128 * Base128.value []) := by
        rw [← UInt32.toNat_inj, UInt8.toNat_toUInt32, UInt32.toNat_ofNat', Base128.value]
        omega
      simp only [if_pos ((and_80_eq_zero b).mpr hb), hval, List.nil_append]
    · have hr : ((b &&& 0x7F).toUInt32).toNat = b.toNat % 128 := by
        rw [UInt8.toNat_toUInt32, toNat_and_7F]
      obtain ⟨result, hloop, hval⟩ :=
        varint32Loop_reads (r := r) (t := t) (e := e) ((Base128.isVarint_cons (by omega)).mp hu)
          (i := 1) (by omega) (by omega) (by rw [hr]; omega) (by omega)
      have hofNat : result = UInt32.ofNat (b.toNat % 128 + 128 * Base128.value bs) := by
        rw [← UInt32.toNat_inj, hval, hr, UInt32.toNat_ofNat', Nat.mod_eq_of_lt hv]
        omega
      have hloop' : varint32Loop (window (bs ++ r) t e).bytesLeft (window (bs ++ r) t e) 7
          (b &&& 0x7F).toUInt32 = (some result, window r t e) := hloop
      simp only [if_neg fun h => hb ((and_80_eq_zero b).mp h), hloop', hofNat]

/-- **`pb_decode_varint32` decodes every varint whose value fits**, padded or not. -/
theorem pbDecodeVarint32_reads {u : List UInt8} (hu : Base128.IsVarint u)
    (hv : Base128.value u < 2 ^ 32) :
    Reads pbDecodeVarint32 u (some (UInt32.ofNat (Base128.value u))) := by
  intro r t e
  unfold pbDecodeVarint32
  rw [pbDecodeVarint32Eof_reads hu hv r t e]
  rfl

theorem pbDecodeVarint32_encode {v : Nat} (hv : v < 2 ^ 32) :
    Reads pbDecodeVarint32 (Base128.encode v) (some (UInt32.ofNat v)) := by
  have := pbDecodeVarint32_reads (Base128.isVarint_encode v) (by rwa [Base128.value_encode])
  rwa [Base128.value_encode] at this

/-! ## The 32-bit decoder stays inside the window -/

theorem varint32Loop_prefixReader (bitpos : UInt8) (result : UInt32) :
    PrefixReader (fun a => a.isSome = true)
      (fun s => varint32Loop s.bytesLeft s bitpos result) := by
  intro w
  induction w generalizing bitpos result with
  | nil => exact ⟨[], [], none, rfl, Or.inr ⟨by simp, some "end-of-stream", fun _ _ => rfl⟩⟩
  | cons b w ih =>
    simp only [window_bytesLeft] at ih ⊢
    cases hstep : varint32Step bitpos result b with
    | none =>
      refine ⟨[b], w, none, rfl, Or.inr ⟨by simp, some "varint overflow", fun t e => ?_⟩⟩
      simp only [List.length_cons, varint32Loop, pbReadbyte_cons, hstep, window_setError]
    | some result' =>
      by_cases h80 : b &&& 0x80 ≠ 0
      · refine PrefixReader.cons (fun w t e => ?_) (ih (bitpos + 7) result')
        simp only [window_bytesLeft, List.length_cons, varint32Loop, pbReadbyte_cons, hstep,
          if_pos h80]
      · by_cases hlast : bitpos + 7 = 35 ∧ b &&& 0x70 ≠ 0
        · refine ⟨[b], w, none, rfl, Or.inr ⟨by simp, some "varint overflow", fun t e => ?_⟩⟩
          simp only [List.length_cons, varint32Loop, pbReadbyte_cons, hstep, if_neg h80,
            if_pos hlast, window_setError]
        · refine ⟨[b], w, some result', rfl, Or.inl ⟨rfl, fun r' t e => ?_⟩⟩
          simp only [List.cons_append, List.nil_append, window_bytesLeft, List.length_cons,
            varint32Loop, pbReadbyte_cons, hstep, if_neg h80, if_neg hlast]

theorem pbDecodeVarint32Eof_cons (b : UInt8) (w t : List UInt8) (e : Option String) :
    pbDecodeVarint32Eof (window (b :: w) t e) =
      if b &&& 0x80 = 0 then (.ok b.toUInt32, window w t e)
      else
        match varint32Loop w.length (window w t e) 7 (b &&& 0x7F).toUInt32 with
        | (some result, s) => (.ok result, s)
        | (none, s) => (.error false, s) := rfl

/-- The decoder answers `eof` exactly on an empty window. -/
theorem pbDecodeVarint32Eof_prefixReader :
    PrefixReader (fun a => a.toOption.isSome = true) pbDecodeVarint32Eof := by
  intro w
  match w with
  | [] => exact ⟨[], [], .error true, rfl, Or.inr ⟨by simp [Except.toOption],
      some "end-of-stream", fun _ _ => rfl⟩⟩
  | b :: w =>
    by_cases h80 : b &&& 0x80 = 0
    · refine ⟨[b], w, .ok b.toUInt32, rfl, Or.inl ⟨rfl, fun r t e => ?_⟩⟩
      rw [List.singleton_append, pbDecodeVarint32Eof_cons, if_pos h80]
    · have hloop := varint32Loop_prefixReader 7 (b &&& 0x7F).toUInt32
      refine PrefixReader.cons (fun w t e => ?_)
        (hloop.map (fun a => a.elim (.error false) .ok) (fun a => ?_) w)
      · rw [pbDecodeVarint32Eof_cons, if_neg h80, window_bytesLeft]
        rcases varint32Loop w.length (window w t e) 7 (b &&& 0x7F).toUInt32 with ⟨_ | _, _⟩ <;> rfl
      · cases a with
        | none => exact Iff.rfl
        | some _ => exact Iff.rfl

theorem pbDecodeVarint32_prefixReader :
    PrefixReader (fun a => a.isSome = true) pbDecodeVarint32 :=
  pbDecodeVarint32Eof_prefixReader.map Except.toOption fun _ => Iff.rfl

/-! ## Skipping a payload -/

theorem pbSkip_reads (u : List UInt8) : Reads (fun s => pbSkip s u.length) u true := by
  intro r t e
  simp only [pbSkip, pbRead_window, Option.isSome_some]

theorem pbSkip_prefixReader (n : Nat) : PrefixReader (· = true) (fun s => pbSkip s n) :=
  (pbRead_prefixReader n).map Option.isSome fun _ => Iff.rfl

theorem skipVarintLoop_cons (n : Nat) (b : UInt8) (w t : List UInt8) (e : Option String) :
    skipVarintLoop (n + 1) (window (b :: w) t e) =
      if b &&& 0x80 ≠ 0 then skipVarintLoop n (window w t e) else (true, window w t e) := rfl

/-- `pb_skip_varint` takes a varint of any length and value. -/
theorem pbSkipVarint_reads {u : List UInt8} (hu : Base128.IsVarint u) :
    Reads pbSkipVarint u true := by
  intro r t e
  unfold pbSkipVarint
  induction u with
  | nil => exact hu.elim
  | cons b u ih =>
    simp only [window_bytesLeft, List.cons_append, List.length_cons, skipVarintLoop_cons] at ih ⊢
    by_cases hb : b.toNat < 128
    · obtain rfl := (Base128.isVarint_small hb).mp hu
      rw [if_neg (not_and_80_ne_zero hb), List.nil_append]
    · rw [if_pos (and_80_ne_zero (by omega))]
      exact ih ((Base128.isVarint_cons (by omega)).mp hu)

/-- Without a last byte, `pb_skip_varint` takes the whole window and fails. -/
theorem pbSkipVarint_all_more {w : List UInt8} (h : ∀ b ∈ w, 128 ≤ b.toNat) (t : List UInt8)
    (e : Option String) :
    pbSkipVarint (window w t e) = (false, window [] t (e.or (some "end-of-stream"))) := by
  unfold pbSkipVarint
  induction w with
  | nil => rfl
  | cons b w ih =>
    have hb := h b List.mem_cons_self
    simp only [window_bytesLeft, List.length_cons, skipVarintLoop_cons] at ih ⊢
    rw [if_pos (and_80_ne_zero hb)]
    exact ih fun x hx => h x (List.mem_cons_of_mem b hx)

theorem pbSkipVarint_prefixReader : PrefixReader (· = true) pbSkipVarint := by
  intro w
  rcases Base128.split_or_all_more w with ⟨u, r, rfl, hu⟩ | h
  · exact ⟨u, r, true, rfl, Or.inl ⟨rfl, pbSkipVarint_reads hu⟩⟩
  · exact ⟨w, [], false, by rw [List.append_nil], Or.inr ⟨by simp, some "end-of-stream",
      fun t e => pbSkipVarint_all_more h t e⟩⟩

theorem pbSkipString_eq :
    pbSkipString = andThen pbDecodeVarint32 false fun length s => pbSkip s length.toNat := by
  funext s
  unfold pbSkipString andThen
  rcases pbDecodeVarint32 s with ⟨_ | _, _⟩ <;> rfl

theorem pbSkipString_prefixReader : PrefixReader (· = true) pbSkipString := by
  rw [pbSkipString_eq]
  exact pbDecodeVarint32_prefixReader.andThen (by simp) fun length => pbSkip_prefixReader _

/-- **`pb_skip_field` stays inside the window**, for every wire type and also when it fails. -/
theorem pbSkipField_prefixReader (wireType : Nat) :
    PrefixReader (· = true) (fun s => pbSkipField s wireType) := by
  unfold pbSkipField
  split_ifs
  · exact pbSkipVarint_prefixReader
  · exact pbSkip_prefixReader 8
  · exact pbSkipString_prefixReader
  · exact pbSkip_prefixReader 4
  · exact fun w => ⟨[], w, false, rfl, Or.inr ⟨by simp, some "invalid wire_type",
      fun _ _ => rfl⟩⟩

/-! ## Reading a key -/

/-- The parts of a key. -/
theorem key_parts {wireType : Nat} (h : wireType < 8) (tag : Nat) :
    (8 * tag + wireType) % 8 = wireType ∧ (8 * tag + wireType) / 8 = tag := by
  omega

theorem toNat_and_7 (k : UInt32) : (k &&& 7).toNat = k.toNat % 8 := by
  rw [UInt32.toNat_and]
  exact Nat.and_two_pow_sub_one_eq_mod k.toNat 3

theorem toNat_shiftRight_3 (k : UInt32) : (k >>> 3).toNat = k.toNat / 8 := by
  rw [UInt32.toNat_shiftRight]
  exact Nat.shiftRight_eq_div_pow k.toNat 3

/-- A key that `pb_decode_varint32` accepts, unless it is zero, is split into wire type and tag. -/
theorem pbDecodeTag_reads_key {u : List UInt8} {k : UInt32} (hu : Reads pbDecodeVarint32Eof u (.ok k))
    (hk : k ≠ 0) : Reads pbDecodeTag u (.field (k.toNat % 8) (k.toNat / 8)) := by
  intro r t e
  unfold pbDecodeTag
  simp only [hu r t e, if_neg hk, toNat_and_7, toNat_shiftRight_3]

/-- The key `8 * tag + wireType` of a field, as a varint of any length. -/
theorem pbDecodeTag_reads {u : List UInt8} (hu : Base128.IsVarint u) (h0 : Base128.value u ≠ 0)
    (hv : Base128.value u < 2 ^ 32) :
    Reads pbDecodeTag u (.field (Base128.value u % 8) (Base128.value u / 8)) := by
  have hval : (UInt32.ofNat (Base128.value u)).toNat = Base128.value u := by
    rw [UInt32.toNat_ofNat', Nat.mod_eq_of_lt hv]
  have := pbDecodeTag_reads_key (pbDecodeVarint32Eof_reads hu hv) fun h => h0 (by
    rw [← hval, h]
    rfl)
  rwa [hval] at this

theorem pbDecodeTag_prefixReader :
    PrefixReader (fun a => ∃ wireType tag, a = .field wireType tag) pbDecodeTag := by
  intro w
  obtain ⟨u, r, a, rfl, ⟨ha, hr⟩ | ⟨ha, msg, hf⟩⟩ := pbDecodeVarint32Eof_prefixReader w
  · match a, ha with
    | .ok k, _ =>
      by_cases hk : k = 0
      · -- a zero key is consumed and ends the message without an error
        refine ⟨u, r, .stop true, rfl, Or.inr ⟨by simp, none, fun t e => ?_⟩⟩
        unfold pbDecodeTag
        simp only [hr r t e, if_pos hk, Option.or_none]
      · exact ⟨u, r, _, rfl, Or.inl ⟨⟨_, _, rfl⟩, pbDecodeTag_reads_key hr hk⟩⟩
  · match a, ha with
    | .error eof, _ =>
      refine ⟨u, r, .stop eof, rfl, Or.inr ⟨by simp, msg, fun t e => ?_⟩⟩
      unfold pbDecodeTag
      simp only [hf t e]
    | .ok _, ha => exact absurd rfl ha

/-- What a tag read from a window is: the bytes of a non-zero key that the decoder accepts. -/
theorem pbDecodeTag_field {w t : List UInt8} {e : Option String} {wireType tag : Nat}
    {s : IStream} (h : pbDecodeTag (window w t e) = (.field wireType tag, s)) :
    ∃ u r k, w = u ++ r ∧ s = window r t e ∧ Reads pbDecodeVarint32Eof u (.ok k) ∧ k ≠ 0 ∧
      wireType = k.toNat % 8 ∧ tag = k.toNat / 8 := by
  obtain ⟨u, r, a, rfl, ⟨ha, hr⟩ | ⟨ha, msg, hf⟩⟩ := pbDecodeVarint32Eof_prefixReader w
  · match a, ha with
    | .ok k, _ =>
      unfold pbDecodeTag at h
      simp only [hr r t e] at h
      split_ifs at h with hk
      · exact absurd (Prod.mk.inj h).1 (by simp)
      · obtain ⟨hfield, rfl⟩ := Prod.mk.inj h
        obtain ⟨rfl, rfl⟩ := TagRead.field.inj hfield
        exact ⟨u, r, k, rfl, rfl, hr, hk, toNat_and_7 k, toNat_shiftRight_3 k⟩
  · match a, ha with
    | .error eof, _ =>
      unfold pbDecodeTag at h
      simp only [hf t e] at h
      exact absurd (Prod.mk.inj h).1 (by simp)
    | .ok _, ha => exact absurd rfl ha

/-- At the end of the window there is no tag, and the flag `eof` is set. -/
theorem pbDecodeTag_nil (t : List UInt8) (e : Option String) :
    pbDecodeTag (window [] t e) = (.stop true, window [] t (e.or (some "end-of-stream"))) := rfl

/-- A key takes a byte at least. -/
theorem reads_tag_ne_nil {k : List UInt8} {wireType tag : Nat}
    (h : Reads pbDecodeTag k (.field wireType tag)) : k ≠ [] := by
  rintro rfl
  have := h [] [] none
  rw [List.append_nil, pbDecodeTag_nil, Prod.mk.injEq] at this
  exact absurd this.1 (by simp)

/-- What is left behind a key is shorter. -/
theorem pbDecodeTag_consumes {w t : List UInt8} {e : Option String} {wireType tag : Nat}
    {s : IStream} (h : pbDecodeTag (window w t e) = (.field wireType tag, s)) :
    ∃ u r, w = u ++ r ∧ s = window r t e ∧ 0 < u.length := by
  obtain ⟨u, r, k, rfl, rfl, hk, hk0, -⟩ := pbDecodeTag_field h
  exact ⟨u, r, rfl, rfl, List.length_pos_of_ne_nil (reads_tag_ne_nil (pbDecodeTag_reads_key hk hk0))⟩

/-! ## Decoding a 64-bit varint -/

theorem varintLoop_cons (n : Nat) (b : UInt8) (w t : List UInt8) (e : Option String)
    (bitpos : UInt8) (result : UInt64) :
    varintLoop (n + 1) (window (b :: w) t e) bitpos result =
      if 64 ≤ bitpos then (none, window (b :: w) t (e.or (some "varint overflow")))
      else if b &&& 0x80 ≠ 0 then
        varintLoop n (window w t e) (bitpos + 7)
          (result ||| ((b &&& 0x7F).toUInt64 <<< bitpos.toUInt64))
      else (some (result ||| ((b &&& 0x7F).toUInt64 <<< bitpos.toUInt64)), window w t e) := rfl

theorem bitpos64_lt : ∀ i < 10, ¬ (64 : UInt8) ≤ UInt8.ofNat (7 * i) := by decide

theorem bitpos64_succ : ∀ i < 10, UInt8.ofNat (7 * i) + 7 = UInt8.ofNat (7 * (i + 1)) := by decide

/-- The digit at place `i < 10` fits when the value does. -/
theorem varint_digit {i : Nat} (hi : i < 10) {result : UInt64} {b : UInt8}
    (hr : result.toNat < 2 ^ (7 * i))
    (hfit : result.toNat + 2 ^ (7 * i) * (b.toNat % 128) < 2 ^ 64) :
    (result ||| ((b &&& 0x7F).toUInt64 <<< (UInt8.ofNat (7 * i)).toUInt64)).toNat
      = result.toNat + 2 ^ (7 * i) * (b.toNat % 128) := by
  have hpos : (UInt8.ofNat (7 * i)).toNat = 7 * i := by
    rw [UInt8.toNat_ofNat', Nat.mod_eq_of_lt (by omega)]
  have hplace : 7 * i % 64 = 7 * i := by omega
  have hshift : ((b &&& 0x7F).toUInt64 <<< (UInt8.ofNat (7 * i)).toUInt64).toNat
      = 2 ^ (7 * i) * (b.toNat % 128) := by
    rw [UInt64.toNat_shiftLeft, UInt8.toNat_toUInt64, UInt8.toNat_toUInt64, toNat_and_7F, hpos,
      hplace, Nat.shiftLeft_eq, Nat.mul_comm,
      Nat.mod_eq_of_lt (by omega)]
  rw [UInt64.toNat_or, hshift, Nat.or_comm, ← Nat.two_pow_add_eq_or_of_lt hr, Nat.add_comm]

/-- The loop at place `i`, with the digits read so far in `result`. -/
theorem varintLoop_reads {r t : List UInt8} {e : Option String} : ∀ {u : List UInt8},
    Base128.IsVarint u → ∀ {i : Nat}, i + u.length ≤ 10 → ∀ {result : UInt64},
      result.toNat < 2 ^ (7 * i) → result.toNat + 2 ^ (7 * i) * Base128.value u < 2 ^ 64 →
      ∃ result', varintLoop (u ++ r).length (window (u ++ r) t e) (UInt8.ofNat (7 * i)) result
          = (some result', window r t e) ∧
        result'.toNat = result.toNat + 2 ^ (7 * i) * Base128.value u
  | [], hu, _, _, _, _, _ => hu.elim
  | b :: bs, hu, i, hi, result, hr, hfit => by
    simp only [Base128.value, List.length_cons] at hfit hi ⊢
    have hi10 : i < 10 := by omega
    rw [digit_split] at hfit ⊢
    have hval := varint_digit (b := b) hi10 hr (by omega)
    have hr' := digit_lt hr b.toNat
    rw [List.cons_append, List.length_cons, varintLoop_cons, if_neg (bitpos64_lt i (by omega))]
    by_cases hb : b.toNat < 128
    · obtain rfl := (Base128.isVarint_small hb).mp hu
      rw [if_neg (not_and_80_ne_zero hb)]
      exact ⟨_, rfl, by rw [hval, Base128.value]; omega⟩
    · rw [if_pos (and_80_ne_zero (by omega)), bitpos64_succ i (by omega)]
      rw [← hval] at hr'
      obtain ⟨result', h1, h2⟩ := varintLoop_reads (r := r) (t := t) (e := e)
        ((Base128.isVarint_cons (by omega)).mp hu) (i := i + 1) (by omega) hr' (by omega)
      exact ⟨result', h1, by omega⟩

/-- **`pb_decode_varint` decodes what `pb_encode_varint` writes**, for every 64-bit value. -/
theorem pbDecodeVarint_encode {v : Nat} (hv : v < 2 ^ 64) :
    Reads pbDecodeVarint (Base128.encode v) (some (UInt64.ofNat v)) := by
  intro r t e
  have hlen : (Base128.encode v).length ≤ 10 :=
    Base128.encode_length_le 9 v (hv.trans_le (by decide))
  have hval := Base128.value_encode v
  have hstart : (0 : UInt64).toNat < 2 ^ (7 * 0) := by decide
  obtain ⟨result, h1, h2⟩ := varintLoop_reads (r := r) (t := t) (e := e)
    (Base128.isVarint_encode v) (i := 0) (by omega) hstart
    (by rw [hval]; simpa using hv)
  have hresult : result = UInt64.ofNat v := by
    rw [← UInt64.toNat_inj, h2, hval, UInt64.toNat_ofNat', Nat.mod_eq_of_lt hv]
    simp
  rw [← hresult]
  exact h1

theorem varintLoop_prefixReader (bitpos : UInt8) (result : UInt64) :
    PrefixReader (fun a => a.isSome = true)
      (fun s => varintLoop s.bytesLeft s bitpos result) := by
  intro w
  induction w generalizing bitpos result with
  | nil =>
    by_cases h64 : 64 ≤ bitpos
    · refine ⟨[], [], none, rfl, Or.inr ⟨by simp, some "varint overflow", fun t e => ?_⟩⟩
      simp only [window_bytesLeft, List.length_nil, varintLoop, if_pos h64, window_setError]
    · refine ⟨[], [], none, rfl, Or.inr ⟨by simp, some "end-of-stream", fun t e => ?_⟩⟩
      simp only [window_bytesLeft, List.length_nil, varintLoop, if_neg h64, window_setError]
  | cons b w ih =>
    simp only [window_bytesLeft, List.length_cons] at ih ⊢
    by_cases h64 : 64 ≤ bitpos
    · refine ⟨[], b :: w, none, rfl, Or.inr ⟨by simp, some "varint overflow", fun t e => ?_⟩⟩
      simp only [varintLoop_cons, if_pos h64]
    · by_cases h80 : b &&& 0x80 ≠ 0
      · refine PrefixReader.cons (fun w t e => ?_)
          (ih (bitpos + 7) (result ||| ((b &&& 0x7F).toUInt64 <<< bitpos.toUInt64)))
        simp only [window_bytesLeft, List.length_cons, varintLoop_cons, if_neg h64, if_pos h80]
      · refine ⟨[b], w, some (result ||| ((b &&& 0x7F).toUInt64 <<< bitpos.toUInt64)), rfl,
          Or.inl ⟨rfl, fun r' t e => ?_⟩⟩
        simp only [List.cons_append, List.nil_append, window_bytesLeft, List.length_cons,
          varintLoop_cons, if_neg h64, if_neg h80]

theorem pbDecodeVarint_prefixReader : PrefixReader (fun a => a.isSome = true) pbDecodeVarint :=
  varintLoop_prefixReader 0 0

end EmbeddedTestbench.Nanopb
