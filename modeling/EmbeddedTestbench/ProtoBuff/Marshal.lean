import EmbeddedTestbench.Hid

/-!
# `marshal` and `decode_union` (`ProtoBuff.c`)

Headlines:
* **`marshal_eq`**, **`marshal_short`**: what `marshal` returns and leaves in the buffer, when the
  message fits and when it does not.
* **`decodeUnion_frame`**: `decode_union` reads one length-prefixed message, with anything behind
  it, and stands right behind that message.
-/

namespace EmbeddedTestbench.ProtoBuff

open Nanopb IStream EmbeddedTestbench.Lib

/-- `(size_t)-1`. -/
def sizeMax : Nat := 2 ^ 64 - 1

/-- `marshal`: what it returns, and the buffer it leaves. -/
def marshal (src : List Slot) (fields : FieldsAddr) (buf : List UInt8) (bufsize : Nat)
    (delimited : Bool) : Nat × List UInt8 :=
  let stream := pbOstreamFromBuffer buf bufsize
  match
    if delimited then pbEncodeDelimited fieldsAt (fieldsAt fields) src stream
    else pbEncode fieldsAt (fieldsAt fields) src stream with
  | (true, stream) => (stream.bytesWritten, stream.before ++ stream.state)
  | (false, stream) => (sizeMax, stream.before ++ stream.state)

/-- The bytes that `marshal` leaves in the buffer. -/
def marshalBytes (src : List Slot) (fields : FieldsAddr) (buf : List UInt8) (bufsize : Nat)
    (delimited : Bool) : List UInt8 :=
  match marshal src fields buf bufsize delimited with
  | (size, buf) => buf.take size

/-- `decode_union`. -/
def decodeUnion (fields : FieldsAddr) (destStruct : List Slot) (stream : IStream) :
    (Bool × List Slot) × IStream :=
  match pbMakeStringSubstream stream with
  | (none, stream) => ((false, destStruct), stream)
  | (some substream, stream) =>
    match pbDecode fieldsAt (fieldsAt fields) destStruct substream with
    | (status, substream) => (status, (pbCloseStringSubstream stream substream).2)

/-- The encoding of a message. -/
def encoding {α : Type} [Message α] (m : α) : List UInt8 :=
  wire fieldsAt (fieldsAt (Message.fields α)) (Message.slots m)

/-- What `marshal` writes: the encoding, with its length in front in delimited mode. -/
def marshalled {α : Type} [Message α] (m : α) (delimited : Bool) : List UInt8 :=
  if delimited then lengthPrefixed (encoding m) else encoding m

theorem encoding_length_le {α : Type} [LeafMessage α] (m : α) :
    (encoding m).length ≤ ((fieldsAt (Message.fields α)).map fun f => f.dataSize + 15).sum :=
  wire_length_le LeafMessage.leaf.required LeafMessage.leaf.scalar (Message.haveShapes m)

/-- What `marshal` has the encoder do. -/
theorem marshal_emits {α : Type} [Message α] (m : α) (hlen : (encoding m).length < 2 ^ 32)
    (delimited : Bool) :
    Emits (fun s =>
      if delimited then
        pbEncodeDelimited fieldsAt (fieldsAt (Message.fields α)) (Message.slots m) s
      else pbEncode fieldsAt (fieldsAt (Message.fields α)) (Message.slots m) s)
      (marshalled m delimited) := by
  unfold marshalled
  cases delimited
  · exact pbEncode_emits (Message.haveShapes m)
  · exact pbEncodeSubmessage_emits (pbEncode_emits (Message.haveShapes m)) (hlen.trans (by decide))

/-- **`marshal` on a message that fits.** -/
theorem marshal_eq {α : Type} [Message α] (m : α) (hlen : (encoding m).length < 2 ^ 32)
    {delimited : Bool} {buf : List UInt8} {bufsize : Nat}
    (hfits : (marshalled m delimited).length ≤ bufsize) :
    marshal (Message.slots m) (Message.fields α) buf bufsize delimited
      = ((marshalled m delimited).length,
          marshalled m delimited ++ buf.drop (marshalled m delimited).length) := by
  have hrun := (marshal_emits m hlen delimited).of_fits (s := pbOstreamFromBuffer buf bufsize) rfl
    (Or.inr (by simpa [pbOstreamFromBuffer] using hfits))
  unfold marshal
  simp only [hrun]
  simp [pbOstreamFromBuffer, OStream.put]

/-- **`marshal` on a message that does not fit**: it has written no more than the buffer holds. -/
theorem marshal_short {α : Type} [Message α] (m : α) (hlen : (encoding m).length < 2 ^ 32)
    {delimited : Bool} (buf : List UInt8) {bufsize : Nat}
    (hshort : bufsize < (marshalled m delimited).length) :
    ∃ w, w.length ≤ bufsize ∧
      marshal (Message.slots m) (Message.fields α) buf bufsize delimited
        = (sizeMax, w ++ buf.drop w.length) := by
  have hroom : ∀ n, (pbOstreamFromBuffer buf bufsize).Fits n ↔ n ≤ bufsize := fun n => by
    simp [OStream.Fits, pbOstreamFromBuffer]
  rcases marshal_emits m hlen delimited (pbOstreamFromBuffer buf bufsize) rfl
    ((hroom 0).mpr (Nat.zero_le _)) with ⟨hfits, -⟩ | ⟨-, w, hw, hrun⟩
  · exact absurd ((hroom _).mp hfits) (Nat.not_le.mpr hshort)
  · refine ⟨w, (hroom _).mp hw, ?_⟩
    unfold marshal
    simp only [hrun]
    simp [pbOstreamFromBuffer, OStream.put, OStream.setError]

theorem marshalBytes_eq {α : Type} [Message α] (m : α) (hlen : (encoding m).length < 2 ^ 32)
    {delimited : Bool} {buf : List UInt8} {bufsize : Nat}
    (hfits : (marshalled m delimited).length ≤ bufsize) :
    marshalBytes (Message.slots m) (Message.fields α) buf bufsize delimited
      = marshalled m delimited := by
  unfold marshalBytes
  rw [marshal_eq m hlen hfits]
  exact List.take_left

/-- A length-prefixed string of bytes is what `pb_make_string_substream` takes. -/
theorem makeSubstream_lengthPrefixed {p : List UInt8} (hp : p.length < 2 ^ 32) (r t : List UInt8)
    (e : Option String) :
    pbMakeStringSubstream (window (lengthPrefixed p ++ r) t e)
      = (some (window p (r ++ t) e), ⟨p ++ (r ++ t), r.length, e⟩) := by
  rw [lengthPrefixed, List.append_assoc]
  exact makeSubstream_window (pbDecodeVarint32_encode hp)
    (by rw [UInt32.toNat_ofNat', Nat.mod_eq_of_lt hp]) r t e

/-- `pb_decode` on the bytes of a message. -/
theorem pbDecode_encoding {α : Type} [LeafMessage α] (m dest : α)
    (hterm : LeafMessage.Terminated m) (t : List UInt8) (e : Option String) :
    pbDecode fieldsAt (fieldsAt (Message.fields α)) (Message.slots dest) (window (encoding m) t e)
      = ((true, Message.slots (LeafMessage.received m)), window [] t e) := by
  rw [LeafMessage.slots_received]
  exact pbDecode_wire searchable_fieldsAt LeafMessage.leaf (Message.haveShapes dest)
    (Message.haveShapes m) (LeafMessage.terminated_slots m hterm) t e

/-- **`decode_union` reads back one length-prefixed message** and stands right behind it. -/
theorem decodeUnion_frame {α : Type} [LeafMessage α] (m dest : α)
    (hterm : LeafMessage.Terminated m) (hlen : (encoding m).length < 2 ^ 32) :
    Reads (decodeUnion (Message.fields α) (Message.slots dest)) (lengthPrefixed (encoding m))
      (true, Message.slots (LeafMessage.received m)) := by
  intro r t e
  unfold decodeUnion
  rw [makeSubstream_lengthPrefixed hlen]
  simp only [pbDecode_encoding m dest hterm (r ++ t) e, closeSubstream_window]

end EmbeddedTestbench.ProtoBuff
