import EmbeddedTestbench.Nanopb.Field
import EmbeddedTestbench.Nanopb.Varint

/-!
# Decoding a message (`pb_decode.c`)

`pb_decode` with its substreams, the field decoders, the bitmap of required fields and the loop
of `pb_decode_noinit`. A decoder answers `(status, dest)` and the stream: `dest` is written as the
code writes it, also on the paths that fail (the terminator of a string that could not be read,
an integer that was cut off before the check).

The loop takes at least the key of a field off the stream in each turn, and a submessage at least
its length prefix, so `bytes_left + 1` is fuel enough for both; a turn without fuel never happens.

Left out, because no message of the program has them: extensions (`find_extension_field` goes once
round the table and leaves the iterator where it was), repeated, oneof, callback and pointer fields,
and default values.

Headlines:
* **`makeSubstream_window`**, **`closeSubstream_window`**: a substream is the window its length
  prefix says, and closing it leaves the parent right behind, however little of it was read.
-/

namespace EmbeddedTestbench.Nanopb

open IStream EmbeddedTestbench.Lib

variable {P : Type}

/-! ## Substreams -/

/-- `pb_make_string_substream`. -/
def pbMakeStringSubstream (s : IStream) : Option IStream × IStream :=
  match pbDecodeVarint32 s with
  | (none, s) => (none, s)
  | (some size, s) =>
    if s.bytesLeft < size.toNat then (none, s.setError "parent stream too short")
    else (some { s with bytesLeft := size.toNat }, { s with bytesLeft := s.bytesLeft - size.toNat })

/-- `pb_close_string_substream`. -/
def pbCloseStringSubstream (s sub : IStream) : Bool × IStream :=
  if sub.bytesLeft ≠ 0 then
    match pbRead sub sub.bytesLeft with
    | (none, _) => (false, s)
    | (some _, sub) => (true, { s with state := sub.state, errmsg := sub.errmsg })
  else (true, { s with state := sub.state, errmsg := sub.errmsg })

theorem makeSubstream_of_read {s s' : IStream} {size : UInt32}
    (h : pbDecodeVarint32 s = (some size, s')) :
    pbMakeStringSubstream s =
      if s'.bytesLeft < size.toNat then (none, s'.setError "parent stream too short")
      else (some { s' with bytesLeft := size.toNat },
        { s' with bytesLeft := s'.bytesLeft - size.toNat }) := by
  rw [pbMakeStringSubstream, h]

/-- A substream is the window its length prefix says. -/
theorem makeSubstream_window {u p : List UInt8} {size : UInt32}
    (hu : Reads pbDecodeVarint32 u (some size)) (hp : p.length = size.toNat) (r t : List UInt8)
    (e : Option String) :
    pbMakeStringSubstream (window (u ++ (p ++ r)) t e)
      = (some (window p (r ++ t) e), ⟨p ++ (r ++ t), r.length, e⟩) := by
  have hle : ¬ (window (p ++ r) t e).bytesLeft < size.toNat := by simp [hp]
  rw [makeSubstream_of_read (hu (p ++ r) t e), if_neg hle, ← hp]
  simp [window]

/-- Closing a substream leaves the parent right behind it, however little of it was read. -/
theorem closeSubstream_window (x q r t : List UInt8) (e e' : Option String) :
    pbCloseStringSubstream ⟨x, r.length, e⟩ (window q (r ++ t) e') = (true, window r t e') := by
  unfold pbCloseStringSubstream
  cases q with
  | nil => rfl
  | cons b q =>
    have hread := pbRead_window (b :: q) [] (r ++ t) e'
    rw [List.append_nil] at hread
    rw [if_pos (by simp), window_bytesLeft, hread]
    rfl

/-- A length prefix that exceeds the bytes left: nothing is handed out. -/
theorem makeSubstream_short {u p : List UInt8} {size : UInt32}
    (hu : Reads pbDecodeVarint32 u (some size)) (hp : p.length < size.toNat) (t : List UInt8)
    (e : Option String) :
    pbMakeStringSubstream (window (u ++ p) t e)
      = (none, window p t (e.or (some "parent stream too short"))) := by
  have hlt : (window p t e).bytesLeft < size.toNat := hp
  rw [makeSubstream_of_read (hu p t e), if_pos hlt, window_setError]

/-- Closing never fails. -/
theorem closeSubstream_true (s sub : IStream) : (pbCloseStringSubstream s sub).1 = true := by
  unfold pbCloseStringSubstream
  split_ifs with h
  · rw [pbRead, if_neg (Nat.lt_irrefl _)]
  · rfl

/-! ## Field decoders -/

/-- `pb_dec_uvarint`. -/
def pbDecUvarint (field : PbField P) (dest : Slot) (s : IStream) : (Bool × Slot) × IStream :=
  match pbDecodeVarint s with
  | (none, s) => ((false, dest), s)
  | (some value, s) =>
    if validDataSize field.dataSize then
      let clamped := UInt64.ofNat (value.toNat % 256 ^ field.dataSize)
      if clamped ≠ value then ((false, .uint clamped), s.setError "integer too large")
      else ((true, .uint clamped), s)
    else ((false, dest), s.setError "invalid data_size")

/-- `pb_dec_string`: the terminator is written also when the read failed. -/
def pbDecString (field : PbField P) (dest : Slot) (s : IStream) : (Bool × Slot) × IStream :=
  match pbDecodeVarint32 s with
  | (none, s) => ((false, dest), s)
  | (some size, s) =>
    let allocSize := size + 1
    if allocSize < size then ((false, dest), s.setError "size too large")
    else if field.dataSize < allocSize.toNat then ((false, dest), s.setError "string overflow")
    else
      match pbRead s size.toNat with
      | (none, s) => ((false, .chars (dest.bytes.set size.toNat 0)), s)
      | (some buf, s) =>
        ((true, .chars ((buf ++ dest.bytes.drop size.toNat).set size.toNat 0)), s)

/-- `pb_dec_submessage`, where `decode` is `pb_decode_noinit` over the table at an address. -/
def pbDecSubmessage (field : PbField P)
    (decode : P → List Slot → IStream → (Bool × List Slot) × IStream) (dest : Slot) (s : IStream) :
    (Bool × Slot) × IStream :=
  match pbMakeStringSubstream s with
  | (none, s) => ((false, dest), s)
  | (some sub, s) =>
    match field.ptr with
    | none => ((false, dest), s.setError "invalid field descriptor")
    | some ptr =>
      let ((status, ms), sub) := decode ptr dest.members sub
      match pbCloseStringSubstream s sub with
      | (false, s) => ((false, .struct ms), s)
      | (true, s) => ((status, .struct ms), s)

/-- `PB_DECODERS[PB_LTYPE(type)]`. -/
def decodeData (field : PbField P)
    (decode : P → List Slot → IStream → (Bool × List Slot) × IStream) (dest : Slot) (s : IStream) :
    (Bool × Slot) × IStream :=
  match field.ltype with
  | .uvarint => pbDecUvarint field dest s
  | .string => pbDecString field dest s
  | .submessage => pbDecSubmessage field decode dest s

/-- `decode_static_field`: the wire type is not looked at. -/
def decodeStaticField (field : PbField P)
    (decode : P → List Slot → IStream → (Bool × List Slot) × IStream) (dest : Slot) (s : IStream) :
    (Bool × Slot) × IStream :=
  match field.htype, dest with
  | .optional, .optional _ member =>
    let ((ok, member), s) := decodeData field decode member s
    ((ok, .optional true member), s)
  | _, dest => decodeData field decode dest s

/-! ## Defaults -/

mutual

/-- `pb_field_set_to_default`. -/
def pbFieldSetToDefault (mem : P → List (PbField P)) (field : PbField P) : Slot → Slot
  | .chars _ => .chars (List.replicate field.dataSize 0)
  | .uint _ => .uint 0
  | .struct ms => match field.ptr with
    | some ptr => .struct (pbMessageSetToDefaults mem (mem ptr) ms)
    | none => .struct ms
  | .optional _ member => .optional false (pbFieldSetToDefault mem field member)

/-- `pb_message_set_to_defaults`. -/
def pbMessageSetToDefaults (mem : P → List (PbField P)) : List (PbField P) → List Slot → List Slot
  | field :: fields, slot :: slots =>
    pbFieldSetToDefault mem field slot :: pbMessageSetToDefaults mem fields slots
  | _, slots => slots

end

/-! ## The loop -/

/-- `PB_MAX_REQUIRED_FIELDS`. -/
def pbMaxRequiredFields : Nat := 64

/-- `fields_seen` at the start. -/
def noneSeen : List Nat := [0, 0]

/-- The bit of a required field in `fields_seen`. -/
def markSeen (fields : List (PbField P)) (iter : PbFieldIter) (seen : List Nat) : List Nat :=
  if requiredAt fields iter.pos ∧ iter.requiredFieldIndex < pbMaxRequiredFields then
    seen.modify (iter.requiredFieldIndex >>> 5) (· ||| 1 <<< (iter.requiredFieldIndex &&& 31))
  else seen

/-- `~(uint32_t)0`. -/
def allbits : Nat := 0xFFFFFFFF

/-- `req_field_count`. -/
def reqFieldCount (fields : List (PbField P)) (iter : PbFieldIter) : Nat :=
  let last := iterSeekEnd fields fields.length iter
  min (last.requiredFieldIndex + if requiredAt fields last.pos then 1 else 0) pbMaxRequiredFields

/-- The bits of `count` required fields are all there: whole words first, then the rest. -/
def requiredSeen (count : Nat) (seen : List Nat) : Bool :=
  (seen.take (count >>> 5)).all (· == allbits) &&
    (count &&& 31 == 0 || seen.getD (count >>> 5) 0 == allbits >>> (32 - (count &&& 31)))

/-- The check that all required fields were present. -/
def checkRequired (fields : List (PbField P)) (iter : PbFieldIter) (seen : List Nat)
    (dest : List Slot) (s : IStream) : (Bool × List Slot) × IStream :=
  if requiredSeen (reqFieldCount fields iter) seen then ((true, dest), s)
  else ((false, dest), s.setError "missing required field")

/-- `pb_dec_varint` on the terminator, which is a required field without a `data_size`. -/
def decodeTerminator (dest : List Slot) (s : IStream) : (Bool × List Slot) × IStream :=
  match pbDecodeVarint s with
  | (none, s) => ((false, dest), s)
  | (some _, s) => ((false, dest), s.setError "invalid data_size")

/-- `decode_field` at the iterator. -/
def decodeField (fields : List (PbField P)) (iter : PbFieldIter)
    (decode : P → List Slot → IStream → (Bool × List Slot) × IStream) (dest : List Slot)
    (s : IStream) : (Bool × List Slot) × IStream :=
  match fields[iter.pos]?, dest[iter.pos]? with
  | none, _ => decodeTerminator dest s
  | some field, some slot =>
    let ((ok, slot), s) := decodeStaticField field decode slot s
    ((ok, dest.set iter.pos slot), s)
  | some _, none => ((false, dest), s)

/-- The `while` of `pb_decode_noinit`, and the check behind it. -/
def decodeLoop (mem : P → List (PbField P)) : Nat → List (PbField P) → PbFieldIter → List Nat →
    List Slot → IStream → (Bool × List Slot) × IStream
  | 0, _, _, _, dest, s => ((false, dest), s)
  | n + 1, fields, iter, seen, dest, s =>
    if s.bytesLeft = 0 then checkRequired fields iter seen dest s
    else
      match pbDecodeTag s with
      | (.stop true, s) => checkRequired fields iter seen dest s
      | (.stop false, s) => ((false, dest), s)
      | (.field wireType tag, s) =>
        match pbFieldIterFind fields tag iter with
        | (false, iter) =>
          match pbSkipField s wireType with
          | (false, s) => ((false, dest), s)
          | (true, s) => decodeLoop mem n fields iter seen dest s
        | (true, iter) =>
          match decodeField fields iter
            (fun ptr => decodeLoop mem n (mem ptr) pbFieldIterBegin noneSeen) dest s with
          | ((false, dest), s) => ((false, dest), s)
          | ((true, dest), s) => decodeLoop mem n fields iter (markSeen fields iter seen) dest s

/-- `pb_decode_noinit`. -/
def pbDecodeNoinit (mem : P → List (PbField P)) (fields : List (PbField P)) (dest : List Slot)
    (s : IStream) : (Bool × List Slot) × IStream :=
  decodeLoop mem (s.bytesLeft + 1) fields pbFieldIterBegin noneSeen dest s

/-- `pb_decode`. -/
def pbDecode (mem : P → List (PbField P)) (fields : List (PbField P)) (dest : List Slot)
    (s : IStream) : (Bool × List Slot) × IStream :=
  pbDecodeNoinit mem fields (pbMessageSetToDefaults mem fields dest) s

/-! ## Where the loop ends -/

/-- At the end of the window the required fields are checked. -/
theorem decodeLoop_nil {mem : P → List (PbField P)} {n : Nat} {fields : List (PbField P)}
    {iter : PbFieldIter} {seen : List Nat} {dest : List Slot} (t : List UInt8)
    (e : Option String) :
    decodeLoop mem (n + 1) fields iter seen dest (window [] t e)
      = checkRequired fields iter seen dest (window [] t e) := rfl

/-- The terminator is never accepted, and nothing is written for it. -/
theorem decodeTerminator_fails (dest : List Slot) (s : IStream) :
    (decodeTerminator dest s).1 = (false, dest) := by
  rw [decodeTerminator]
  rcases pbDecodeVarint s with ⟨_ | _, s'⟩ <;> rfl

/-- A record with the tag zero, for a message without fields. -/
example : pbDecode (fun _ : Unit => []) [] [] (window [0x05, 0x01, 0x02, 0x03, 0x04] [] none)
    = ((false, []), window [0x02, 0x03, 0x04] [] (some "invalid data_size")) := by
  rfl

end EmbeddedTestbench.Nanopb
