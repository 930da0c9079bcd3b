import EmbeddedTestbench.PacketSerial.Frame
import EmbeddedTestbench.ProtoBuff.Dispatch

/-!
# How much room `marshal` needs (`ProtoBuff.c`, `pb_encode.c`)

`pb_write` checks for space before every piece it writes, while a submessage is sized, checked and
written as a whole. Both come to the same: `marshal` succeeds exactly when the whole encoding fits.

Headlines:
* **`marshal_exact`**: what `marshal` returns and writes, for every message of `hid.proto`, every
  buffer and both modes.
* `HidMessage.encoding_length_le`: no message of `hid.proto` takes more than 1000 bytes.
-/

namespace EmbeddedTestbench

open Nanopb OStream ProtoBuff EmbeddedTestbench.Lib

/-! ## The length of an encoding -/

/-- The undelimited encoding of a message of `hid.proto`. -/
def HidMessage.encoding (m : HidMessage) : List UInt8 :=
  wire fieldsAt (fieldsAt m.fields) m.slots

/-- No message of `hid.proto` takes more than 1000 bytes. -/
theorem HidMessage.encoding_length_le : ∀ m : HidMessage, m.encoding.length ≤ 1000
  | deviceDescriptor m => (ProtoBuff.encoding_length_le m).trans (by decide)
  | hidReport m => (ProtoBuff.encoding_length_le m).trans (by decide)
  | inputReport m => (ProtoBuff.encoding_length_le m).trans (by decide)
  | unionMessage m => encoding_union_length_le m
  | packet m => (ProtoBuff.encoding_length_le m).trans (by decide)

/-! ## `marshal` and its buffer -/

/-- The result of a writer that is exact about the room in its buffer: all of `bytes` in front of
the unchanged rest, or `(size_t)-1` where they do not fit. -/
def WritesExactly (result : Nat × List UInt8) (bytes buf : List UInt8) (bufsize : Nat) : Prop :=
  if bytes.length ≤ bufsize then result = (bytes.length, bytes ++ buf.drop bytes.length)
  else result.1 = sizeMax

/-- The sizing pass and the writing pass over a message, as `pb_encode_submessage` makes them,
succeed and count the same bytes. -/
def PassesAgree (fields : FieldsAddr) (src : List Slot) : Prop :=
  let encode := pbEncode fieldsAt (fieldsAt fields) src
  (encode sizing).1 = true ∧ ∀ s : OStream,
    let sub := encode (s.substream (encode sizing).2.bytesWritten)
    sub.1 = true ∧ sub.2.bytesWritten = (encode sizing).2.bytesWritten

theorem passesAgree {fields : FieldsAddr} {src : List Slot}
    (h : HaveShapes fieldsAt (fieldsAt fields) src) : PassesAgree fields src := by
  have hemits := pbEncode_emits h
  have hsizing := hemits.of_fits (s := sizing) rfl (Or.inl rfl)
  have hcount : (pbEncode fieldsAt (fieldsAt fields) src sizing).2.bytesWritten
      = (wire fieldsAt (fieldsAt fields) src).length := by
    rw [hsizing, put_bytesWritten]
    exact Nat.zero_add _
  refine ⟨by rw [hsizing], fun s => ?_⟩
  have hwriting := hemits.of_fits (s := s.substream (wire fieldsAt (fieldsAt fields) src).length) rfl
    (Or.inr (Nat.le_of_eq (Nat.zero_add _)))
  rw [hcount, hwriting]
  exact ⟨rfl, (put_bytesWritten _ _).trans (Nat.zero_add _)⟩

theorem drop_writing {w buf : List UInt8} {bufsize : Nat} (h : w.length ≤ bufsize) :
    (w ++ buf.drop w.length).drop bufsize = buf.drop bufsize := by
  rw [List.drop_append, List.drop_of_length_le h, List.nil_append, List.drop_drop]
  congr 1
  omega

section Message

variable {α : Type} [Message α] (m : α) (hlen : (ProtoBuff.encoding m).length < 2 ^ 32)
  (buf : List UInt8) (bufsize : Nat) (delimited : Bool)
include hlen

theorem marshal_writesExactly :
    WritesExactly (marshal (Message.slots m) (Message.fields α) buf bufsize delimited)
      (marshalled m delimited) buf bufsize := by
  unfold WritesExactly
  split_ifs with hfits
  · exact marshal_eq m hlen hfits
  · obtain ⟨w, -, hrun⟩ := marshal_short m hlen buf (Nat.not_le.mp hfits)
    rw [hrun]

/-- No byte behind the buffer is written. -/
theorem marshal_drop :
    (marshal (Message.slots m) (Message.fields α) buf bufsize delimited).2.drop bufsize
      = buf.drop bufsize := by
  by_cases hfits : (marshalled m delimited).length ≤ bufsize
  · rw [marshal_eq m hlen hfits]
    exact drop_writing hfits
  · obtain ⟨w, hw, hrun⟩ := marshal_short m hlen buf (Nat.not_le.mp hfits)
    rw [hrun]
    exact drop_writing hw

end Message

namespace HidMessage

/-- What holds of every struct with a table holds of every message. -/
theorem forall_message (m : HidMessage) {p : FieldsAddr → List Slot → List UInt8 → Prop}
    (h : ∀ {α : Type} [Message α] (m : α), (ProtoBuff.encoding m).length < 2 ^ 32 →
      p (Message.fields α) (Message.slots m) (ProtoBuff.encoding m)) :
    p m.fields m.slots m.encoding := by
  have hlen : m.encoding.length < 2 ^ 32 := m.encoding_length_le.trans_lt (by decide)
  cases m with
  | deviceDescriptor m => exact h m hlen
  | hidReport m => exact h m hlen
  | inputReport m => exact h m hlen
  | unionMessage m => exact h m hlen
  | packet m => exact h m hlen

end HidMessage

/-- **`marshal` is exact about the room in its buffer**, in both modes: it succeeds exactly when
the encoding fits, with its length in front when it is delimited, and writes nothing behind the
buffer. Both passes over a message count the same bytes; a submessage is a message itself. -/
theorem marshal_exact (m : HidMessage) (buf : List UInt8) (bufsize : Nat) :
    let e := m.encoding
    let v := Base128.encode e.length
    WritesExactly (marshal m.slots m.fields buf bufsize false) e buf bufsize ∧
    WritesExactly (marshal m.slots m.fields buf bufsize true) (v ++ e) buf bufsize ∧
    (∀ delimited,
      (marshal m.slots m.fields buf bufsize delimited).2.drop bufsize = buf.drop bufsize) ∧
    PassesAgree m.fields m.slots := by
  refine ⟨?_, ?_, fun delimited => ?_, passesAgree m.haveShapes⟩
  · refine m.forall_message (p := fun fields slots e =>
      WritesExactly (marshal slots fields buf bufsize false) e buf bufsize) fun m hlen => ?_
    exact marshal_writesExactly m hlen buf bufsize false
  · refine m.forall_message (p := fun fields slots e => WritesExactly
      (marshal slots fields buf bufsize true) (Base128.encode e.length ++ e) buf bufsize)
      fun m hlen => ?_
    exact marshal_writesExactly m hlen buf bufsize true
  · refine m.forall_message (p := fun fields slots _ =>
      (marshal slots fields buf bufsize delimited).2.drop bufsize = buf.drop bufsize)
      fun m hlen => ?_
    exact marshal_drop m hlen buf bufsize delimited

/-- An empty report in a buffer of two bytes, with a byte behind it: its length does not fit. -/
theorem marshal_exact_empty_report :
    let report : HidMessage := .inputReport ⟨.zero 64⟩
    marshal report.slots report.fields [0xFF, 0xFF, 0xFF] 2 false = (2, [0x0A, 0x00, 0xFF]) ∧
      (marshal report.slots report.fields [0xFF, 0xFF, 0xFF] 2 true).1 = sizeMax := by
  intro report
  have he : report.encoding = [0x0A, 0x00] := by decide +kernel
  obtain ⟨hplain, hframed, -, -⟩ := marshal_exact report [0xFF, 0xFF, 0xFF] 2
  rw [he, WritesExactly, if_pos (by decide)] at hplain
  rw [he, WritesExactly, if_neg (by decide +kernel)] at hframed
  exact ⟨hplain, hframed⟩

end EmbeddedTestbench
