import Mathlib.Data.List.TakeWhile
import EmbeddedTestbench.Nanopb.OStream
import EmbeddedTestbench.Nanopb.Field
import EmbeddedTestbench.Nanopb.Varint

/-!
# Encoding a message (`pb_encode.c`)

`pb_encode` over a field table, with the string scan, the size check of integers and the nested
submessages. `wire` says what a message looks like on the wire, without streams or buffers.

Headlines:
* **`pbEncode_emits`**: on a struct whose members have the shapes of the table's fields, `pb_encode`
  emits `wire` (`Emits`), at every nesting depth.
* `take_strnlen`: a string goes out up to its first NUL, or whole when there is none.
-/

namespace EmbeddedTestbench.Nanopb

open OStream EmbeddedTestbench.Lib

variable {P : Type}

/-! ## Field encoders -/

/-- `while (size < max_size && *p != '\0')`. -/
def strnlen : Nat → List UInt8 → Nat
  | n + 1, b :: bs => if b ≠ 0 then strnlen n bs + 1 else 0
  | _, _ => 0

/-- `pb_enc_string`. -/
def pbEncString (field : PbField P) (src : List UInt8) : OStream → Bool × OStream :=
  pbEncodeString (src.take (strnlen field.dataSize src))

/-- `pb_enc_uvarint`. -/
def pbEncUvarint (field : PbField P) (value : UInt64) (s : OStream) : Bool × OStream :=
  if validDataSize field.dataSize then pbEncodeVarint value s
  else (false, s.setError "invalid data_size")

/-- `pb_enc_submessage`, where `encode` is `pb_encode` over the table at an address. -/
def pbEncSubmessage (field : PbField P) (encode : P → OStream → Bool × OStream) (s : OStream) :
    Bool × OStream :=
  match field.ptr with
  | none => (false, s.setError "invalid field descriptor")
  | some ptr => pbEncodeSubmessage (encode ptr) s

/-- The wire type of `pb_encode_tag_for_field`. -/
def wireTypeOf : LType → Nat
  | .uvarint => wtVarint
  | .string => wtString
  | .submessage => wtString

/-- `pb_encode_tag_for_field`. -/
def pbEncodeTagForField (field : PbField P) : OStream → Bool × OStream :=
  pbEncodeTag (wireTypeOf field.ltype) field.tag

/-- `encode_basic_field`: `has` is `*pSize`, and `func` the encoder of the data. -/
def encodeBasicField (field : PbField P) (has : Bool) (func : OStream → Bool × OStream)
    (s : OStream) : Bool × OStream :=
  match field.htype with
  | .required => andThenW (pbEncodeTagForField field) func s
  | .optional => if has then andThenW (pbEncodeTagForField field) func s else (true, s)

mutual

/-- `PB_ENCODERS[PB_LTYPE(field->type)]` on the member at `pData`, which is past the flag of an
optional member. A member that is not of the field's type cannot occur, and answers `false`. -/
def encodeData (mem : P → List (PbField P)) (field : PbField P) : Slot → OStream → Bool × OStream
  | .chars a, s => match field.ltype with
    | .string => pbEncString field a s
    | _ => (false, s)
  | .uint v, s => match field.ltype with
    | .uvarint => pbEncUvarint field v s
    | _ => (false, s)
  | .struct ms, s => match field.ltype with
    | .submessage => pbEncSubmessage field (fun ptr => pbEncode mem (mem ptr) ms) s
    | _ => (false, s)
  | .optional _ member, s => encodeData mem field member s

/-- `pb_encode`. -/
def pbEncode (mem : P → List (PbField P)) : List (PbField P) → List Slot → OStream → Bool × OStream
  | field :: fields, slot :: slots, s =>
    andThenW (encodeBasicField field slot.has (encodeData mem field slot))
      (pbEncode mem fields slots) s
  | _, _, s => (true, s)

end

/-- `pb_encode_delimited`. -/
def pbEncodeDelimited (mem : P → List (PbField P)) (fields : List (PbField P)) (src : List Slot) :
    OStream → Bool × OStream :=
  pbEncodeSubmessage (pbEncode mem fields src)

/-! ## What a message looks like on the wire -/

/-- The C string in a character array: up to the first NUL. -/
def cString (a : List UInt8) : List UInt8 := a.takeWhile (· ≠ 0)

/-- A string of bytes with its length in front. -/
def lengthPrefixed (bs : List UInt8) : List UInt8 := Base128.encode bs.length ++ bs

/-- The key of a field. -/
def keyBytes (field : PbField P) : List UInt8 :=
  Base128.encode (8 * field.tag + wireTypeOf field.ltype)

mutual

/-- The payload of a field. -/
def wireData (mem : P → List (PbField P)) (field : PbField P) : Slot → List UInt8
  | .chars a => lengthPrefixed (cString a)
  | .uint v => Base128.encode v.toNat
  | .struct ms => match field.ptr with
    | some ptr => lengthPrefixed (wire mem (mem ptr) ms)
    | none => []
  | .optional _ member => wireData mem field member

/-- The fields of a message that are present, in the order of the table. -/
def wire (mem : P → List (PbField P)) : List (PbField P) → List Slot → List UInt8
  | field :: fields, slot :: slots =>
    (if slot.has then keyBytes field ++ wireData mem field slot else []) ++ wire mem fields slots
  | _, _ => []

end

/-- Tag and size of a field are in range. -/
def PbField.InRange (field : PbField P) : Prop := field.tag < 2 ^ 29 ∧ field.dataSize < 2 ^ 32

mutual

/-- The member has the type and the size the field says. -/
def HasShape (mem : P → List (PbField P)) (field : PbField P) : Slot → Prop
  | .chars a => field.ltype = .string ∧ a.length = field.dataSize
  | .uint v => field.ltype = .uvarint ∧ validDataSize field.dataSize = true ∧
      v.toNat < 256 ^ field.dataSize
  | .struct ms => field.ltype = .submessage ∧ match field.ptr with
    | some ptr => HaveShapes mem (mem ptr) ms ∧ (wire mem (mem ptr) ms).length < 2 ^ 32
    | none => False
  | .optional _ member => HasShape mem field member

/-- The members have the shapes of the fields, in order. -/
def HaveShapes (mem : P → List (PbField P)) : List (PbField P) → List Slot → Prop
  | [], [] => True
  | field :: fields, slot :: slots =>
    field.InRange ∧ field.htype = slot.htype ∧ HasShape mem field slot ∧
      HaveShapes mem fields slots
  | _, _ => False

end

/-! ## Shapes -/

theorem not_haveShapes_nil_cons {mem : P → List (PbField P)} {slot : Slot} {slots : List Slot} :
    ¬ HaveShapes mem [] (slot :: slots) := by
  rw [HaveShapes]
  · exact id
  · simp
  · simp

theorem not_haveShapes_cons_nil {mem : P → List (PbField P)} {field : PbField P}
    {fields : List (PbField P)} : ¬ HaveShapes mem (field :: fields) [] := by
  rw [HaveShapes]
  · exact id
  · simp
  · simp

/-! ## Strings -/

/-- What `pb_enc_string` sends of an array of its own size. -/
theorem take_strnlen : ∀ (a : List UInt8), a.take (strnlen a.length a) = cString a
  | [] => rfl
  | b :: bs => by
    have ih := take_strnlen bs
    unfold cString at ih ⊢
    by_cases hb : b ≠ 0
    · rw [List.length_cons, strnlen, if_pos hb, List.take_succ_cons, ih,
        List.takeWhile_cons_of_pos (by simpa using hb)]
    · rw [List.length_cons, strnlen, if_neg hb, List.take_zero,
        List.takeWhile_cons_of_neg (by simpa using hb)]

theorem cString_length_le (a : List UInt8) : (cString a).length ≤ a.length :=
  (List.takeWhile_prefix _).length_le

theorem zero_notMem_cString (a : List UInt8) : 0 ∉ cString a := fun h => by
  simpa using List.mem_takeWhile_imp h

theorem cString_of_notMem {a : List UInt8} (h : 0 ∉ a) : cString a = a := by
  refine List.takeWhile_eq_self_iff.mpr fun b hb => ?_
  rw [decide_eq_true_eq]
  rintro rfl
  exact h hb

/-- Only bytes without a zero are a string of their own length. -/
theorem cString_eq_self_iff {a : List UInt8} : cString a = a ↔ 0 ∉ a := by
  refine ⟨fun h => ?_, cString_of_notMem⟩
  rw [← h]
  exact zero_notMem_cString a

/-- A terminated string is shorter than its array. -/
theorem cString_length_lt {a : List UInt8} (h : 0 ∈ a) : (cString a).length < a.length := by
  rcases Nat.lt_or_eq_of_le (cString_length_le a) with hlt | heq
  · exact hlt
  · have hall : cString a = a := (List.takeWhile_prefix _).eq_of_length heq
    exact absurd h (cString_eq_self_iff.mp hall)

/-- A string without NUL is whole, whatever is behind its terminator. -/
theorem cString_append_zero {c : List UInt8} (h : 0 ∉ c) (rest : List UInt8) :
    cString (c ++ 0 :: rest) = c := by
  induction c with
  | nil => rfl
  | cons b c ih =>
    obtain ⟨hb, hc⟩ := List.ne_and_not_mem_of_not_mem_cons h
    unfold cString at ih ⊢
    rw [List.cons_append, List.takeWhile_cons_of_pos (by simpa using Ne.symm hb), ih hc]

/-! ## `pb_encode` emits the wire format -/

theorem wireTypeOf_lt (ltype : LType) : wireTypeOf ltype < 8 := by
  cases ltype <;> decide

theorem encodeBasicField_present {field : PbField P} {func : OStream → Bool × OStream}
    {bs : List UInt8} (htag : field.tag < 2 ^ 29) (hf : Emits func bs) :
    Emits (encodeBasicField field true func) (keyBytes field ++ bs) := by
  have heq : encodeBasicField field true func = andThenW (pbEncodeTagForField field) func := by
    funext s
    unfold encodeBasicField
    cases field.htype <;> rfl
  rw [heq]
  exact (pbEncodeTag_emits (wireTypeOf_lt _) htag).andThen hf

theorem encodeBasicField_absent {field : PbField P} {func : OStream → Bool × OStream}
    (h : field.htype = .optional) : Emits (encodeBasicField field false func) [] := by
  have heq : encodeBasicField field false func = fun s => (true, s) := by
    funext s
    unfold encodeBasicField
    rw [h]
    rfl
  rw [heq]
  exact emits_nil

theorem Slot.htype_of_has_eq_false {slot : Slot} (h : slot.has = false) :
    slot.htype = .optional := by
  cases slot with
  | optional => rfl
  | _ => exact absurd h (by simp [Slot.has])

mutual

theorem encodeData_emits {mem : P → List (PbField P)} {field : PbField P}
    (hsize : field.dataSize < 2 ^ 32) : ∀ {slot : Slot}, HasShape mem field slot →
      Emits (encodeData mem field slot) (wireData mem field slot)
  | .chars a, h => by
    rw [HasShape] at h
    obtain ⟨hl, hlen⟩ := h
    have heq : encodeData mem field (.chars a) = pbEncodeString (cString a) := by
      funext s
      rw [encodeData, hl]
      simp only [pbEncString, ← hlen, take_strnlen]
    rw [heq, wireData]
    exact pbEncodeString_emits (by have := cString_length_le a; omega)
  | .uint v, h => by
    rw [HasShape] at h
    obtain ⟨hl, hv, -⟩ := h
    have heq : encodeData mem field (.uint v) = pbEncodeVarint v := by
      funext s
      rw [encodeData, hl]
      simp only [pbEncUvarint, if_pos hv]
    rw [heq, wireData]
    exact pbEncodeVarint_emits v
  | .struct ms, h => by
    rw [HasShape] at h
    obtain ⟨hl, h⟩ := h
    cases hp : field.ptr with
    | none =>
      rw [hp] at h
      exact h.elim
    | some ptr =>
      rw [hp] at h
      have heq : encodeData mem field (.struct ms)
          = pbEncodeSubmessage (pbEncode mem (mem ptr) ms) := by
        funext s
        rw [encodeData, hl]
        simp only [pbEncSubmessage, hp]
      rw [heq, wireData, hp]
      exact pbEncodeSubmessage_emits (pbEncode_emits h.1) (h.2.trans (by decide))
  | .optional has member, h => by
    rw [HasShape] at h
    have heq : encodeData mem field (.optional has member) = encodeData mem field member := by
      funext s
      rw [encodeData]
    rw [heq, wireData]
    exact encodeData_emits hsize h

/-- **`pb_encode` emits the wire format of the message.** -/
theorem pbEncode_emits {mem : P → List (PbField P)} : ∀ {fields : List (PbField P)}
    {slots : List Slot}, HaveShapes mem fields slots →
      Emits (pbEncode mem fields slots) (wire mem fields slots)
  | [], [], _ => by
    have heq : pbEncode mem [] [] = fun s => (true, s) := by
      funext s
      rw [pbEncode]
      simp
    rw [heq, wire]
    · exact emits_nil
    · simp
  | field :: fields, slot :: slots, h => by
    rw [HaveShapes] at h
    obtain ⟨⟨htag, hsize⟩, hh, hm, hrest⟩ := h
    have heq : pbEncode mem (field :: fields) (slot :: slots)
        = andThenW (encodeBasicField field slot.has (encodeData mem field slot))
            (pbEncode mem fields slots) := by
      funext s
      rw [pbEncode]
    rw [heq, wire]
    refine Emits.andThen ?_ (pbEncode_emits hrest)
    cases hhas : slot.has
    · exact encodeBasicField_absent (hh.trans (Slot.htype_of_has_eq_false hhas))
    · exact encodeBasicField_present htag (encodeData_emits hsize hm)
  | [], _ :: _, h => (not_haveShapes_nil_cons h).elim
  | _ :: _, [], h => (not_haveShapes_cons_nil h).elim

end

end EmbeddedTestbench.Nanopb
