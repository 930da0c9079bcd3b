import EmbeddedTestbench.Lib.Wire
import EmbeddedTestbench.ProtoBuff.Marshal
import EmbeddedTestbench.ProtoBuff.Registry

/-!
# `unmarshal` (`ProtoBuff.c`)

The walk of `decode_unionmessage_type`, the lookup and the two framings. What a callback does with
the stream is a parameter: `call callback type stream` answers what it got out of the stream and
leaves the stream where it stopped. `unmarshal` gives back, beside its result, the list of the
calls it made. A callback is `void`, so its answer goes to that list and nowhere else.

Headlines:
* **`decodeUnionmessageType_eq`**: one turn of the walk, without fuel.
* **`unmarshalWith_eq`**: the framing hands one stream to the callback, and passes its answer on.
* **`unmarshal_iff_called`**: `unmarshal` answers `true` exactly when it called a callback.
-/

namespace EmbeddedTestbench.ProtoBuff

open Nanopb IStream EmbeddedTestbench.Lib

/-! ## Definitions -/

/-- `PB_LTYPE_SUBMESSAGE`. -/
def pbLtypeSubmessage : UInt8 := 0x07

/-- What the body of the loop of `decode_unionmessage_type` finds for a key: the `ptr` of the
submessage with that tag. -/
def unionPtr (wireType tag : Nat) : Option (Option FieldsAddr) :=
  if wireType = wtString then
    ((fieldsAt .unionMessage).find? fun field =>
      field.tag == tag && field.type &&& pbLtypeSubmessage != 0).map PbField.ptr
  else none

/-- The `while` of `decode_unionmessage_type`; the result of `pb_skip_field` is not looked at. -/
def unionTypeLoop : Nat → IStream → Option FieldsAddr × IStream
  | 0, stream => (none, stream)
  | n + 1, stream =>
    match pbDecodeTag stream with
    | (.stop _, stream) => (none, stream)
    | (.field wireType tag, stream) =>
      match unionPtr wireType tag with
      | some ptr => (ptr, stream)
      | none => unionTypeLoop n (pbSkipField stream wireType).2

/-- `decode_unionmessage_type`: every turn takes a byte at least, so `bytes_left + 1` turns are
enough. -/
def decodeUnionmessageType (stream : IStream) : Option FieldsAddr × IStream :=
  unionTypeLoop (stream.bytesLeft + 1) stream

/-- A call of a handler's callback: with which arguments, and what came of it. -/
structure CallRecord (C R : Type) where
  callback : Option C
  stream : IStream
  type : Option FieldsAddr
  result : R

variable {C R L : Type}

/-- `handlers[idx]`. -/
def Registry.at (r : Registry FieldsAddr C) (idx : Int) : Handler FieldsAddr C :=
  r.handlers (Fin.ofNat 16 idx.toNat)

/-- `_unmarshal_lookup_callback`. -/
def unmarshalLookupCallback (r : Registry FieldsAddr C)
    (call : Option C → Option FieldsAddr → IStream → R × IStream) (decodeStream : IStream) :
    (Bool × List (CallRecord C R)) × IStream :=
  match decodeUnionmessageType decodeStream with
  | (type, stream) =>
    let idx := findHandler r type
    if idxValid idx then
      let callback := (r.at idx).callback
      match call callback type stream with
      | (result, stream') => ((true, [⟨callback, stream, type, result⟩]), stream')
    else ((false, []), stream)

/-- `_unmarshal`; the calls that `callback` made are kept beside the result. -/
def unmarshalWith (buf : List UInt8) (bufsize : Nat) (delimited : Bool)
    (callback : IStream → (Bool × List L) × IStream) : Bool × List L :=
  let parentStream := pbIstreamFromBuffer buf bufsize
  if delimited then
    match pbMakeStringSubstream parentStream with
    | (none, _) => (false, [])
    | (some subStream, parentStream) =>
      match callback subStream with
      | ((retval, calls), subStream) =>
        match pbCloseStringSubstream parentStream subStream with
        | (false, _) => (false, calls)
        | (true, _) => (retval, calls)
  else (callback parentStream).1

/-- `explicit_unmarshal`. -/
def explicitUnmarshal (buf : List UInt8) (bufsize : Nat) (delimited : Bool)
    (callback : IStream → (Bool × List L) × IStream) : Bool × List L :=
  unmarshalWith buf bufsize delimited callback

/-- `unmarshal`. -/
def unmarshal (r : Registry FieldsAddr C)
    (call : Option C → Option FieldsAddr → IStream → R × IStream) (buf : List UInt8)
    (bufsize : Nat) (delimited : Bool) : Bool × List (CallRecord C R) :=
  unmarshalWith buf bufsize delimited (unmarshalLookupCallback r call)

/-- What the callbacks of the program do: `decode_union(stream, type, &dest)`, where `dest` is a
struct of the type. -/
def decodeCallback (dest : FieldsAddr → List Slot) (_ : Option C) (type : Option FieldsAddr)
    (stream : IStream) : (Bool × List Slot) × IStream :=
  match type with
  | some type => decodeUnion type (dest type) stream
  | none => ((false, []), stream)

/-! ## The keys of `UnionMessage` -/

/-- The type of a union field. -/
inductive UnionType : Nat → FieldsAddr → Prop where
  | deviceDescriptor : UnionType 1 .deviceDescriptor
  | hidReport : UnionType 2 .hidReport
  | inputReport : UnionType 3 .inputReport

theorem unionPtr_eq_some {wireType tag : Nat} {ptr : Option FieldsAddr} :
    unionPtr wireType tag = some ptr ↔
      wireType = 2 ∧ ∃ type, ptr = some type ∧ UnionType tag type := by
  unfold unionPtr wtString
  constructor
  · intro h
    split_ifs at h with hw
    obtain ⟨field, hfind, rfl⟩ := Option.map_eq_some_iff.mp h
    have hmem := List.mem_of_find?_eq_some hfind
    have htag := List.find?_some hfind
    simp only [Bool.and_eq_true, beq_iff_eq] at htag
    obtain ⟨rfl, -⟩ := htag
    simp only [fieldsAt, List.mem_cons, List.not_mem_nil, or_false] at hmem
    rcases hmem with rfl | rfl | rfl
    · exact ⟨hw, _, rfl, .deviceDescriptor⟩
    · exact ⟨hw, _, rfl, .hidReport⟩
    · exact ⟨hw, _, rfl, .inputReport⟩
  · rintro ⟨rfl, type, rfl, ht⟩
    cases ht <;> decide

theorem unionPtr_eq_none {wireType tag : Nat} :
    unionPtr wireType tag = none ↔ ¬ (wireType = 2 ∧ (tag = 1 ∨ tag = 2 ∨ tag = 3)) := by
  constructor
  · rintro h ⟨rfl, rfl | rfl | rfl⟩ <;> exact absurd h (by decide)
  · intro h
    cases hp : unionPtr wireType tag with
    | none => rfl
    | some ptr =>
      obtain ⟨hw, type, -, ht⟩ := unionPtr_eq_some.mp hp
      refine absurd ⟨hw, ?_⟩ h
      cases ht
      · exact Or.inl rfl
      · exact Or.inr (Or.inl rfl)
      · exact Or.inr (Or.inr rfl)

/-! ## One turn of the walk -/

/-- A skip stays inside the window. -/
theorem skip_window (w t : List UInt8) (e : Option String) (wireType : Nat) :
    ∃ u r e', w = u ++ r ∧ (pbSkipField (window w t e) wireType).2 = window r t e' := by
  obtain ⟨a, u, r, e', rfl, h⟩ := (pbSkipField_prefixReader wireType).windowed w e
  exact ⟨u, r, e', rfl, congrArg Prod.snd (h t)⟩

/-- More fuel than bytes changes nothing. -/
theorem unionTypeLoop_fuel : ∀ (n m : Nat) (w t : List UInt8) (e : Option String),
    w.length < n → w.length < m → unionTypeLoop n (window w t e) = unionTypeLoop m (window w t e)
  | 0, _, _, _, _, h, _ => absurd h (Nat.not_lt_zero _)
  | _, 0, _, _, _, _, h => absurd h (Nat.not_lt_zero _)
  | n + 1, m + 1, w, t, e, hn, hm => by
    unfold unionTypeLoop
    cases htag : pbDecodeTag (window w t e) with
    | mk a s =>
      cases a with
      | stop eof => rfl
      | field wireType tag =>
        obtain ⟨k, x, rfl, rfl, hpos⟩ := pbDecodeTag_consumes htag
        simp only
        cases unionPtr wireType tag with
        | some ptr => rfl
        | none =>
          obtain ⟨u, r, e', rfl, hs⟩ := skip_window x t e wireType
          simp only [hs]
          simp only [List.length_append] at hn hm
          exact unionTypeLoop_fuel n m r t e' (by omega) (by omega)

/-- **One turn of the walk.** -/
theorem decodeUnionmessageType_eq (w t : List UInt8) (e : Option String) :
    decodeUnionmessageType (window w t e) =
      match pbDecodeTag (window w t e) with
      | (.stop _, stream) => (none, stream)
      | (.field wireType tag, stream) =>
        match unionPtr wireType tag with
        | some ptr => (ptr, stream)
        | none => decodeUnionmessageType (pbSkipField stream wireType).2 := by
  rw [decodeUnionmessageType, unionTypeLoop]
  cases htag : pbDecodeTag (window w t e) with
  | mk a s =>
    cases a with
    | stop eof => rfl
    | field wireType tag =>
      obtain ⟨k, x, rfl, rfl, hpos⟩ := pbDecodeTag_consumes htag
      simp only
      cases unionPtr wireType tag with
      | some ptr => rfl
      | none =>
        obtain ⟨u, r, e', rfl, hs⟩ := skip_window x t e wireType
        simp only [hs, decodeUnionmessageType, window_bytesLeft, List.length_append]
        exact unionTypeLoop_fuel _ _ r t e' (by omega) (by omega)

/-! ## The verdict -/

/-- The stream that `_unmarshal` hands to its callback. -/
def decodeStream (buf : List UInt8) (bufsize : Nat) (delimited : Bool) : Option IStream :=
  if delimited then (pbMakeStringSubstream (pbIstreamFromBuffer buf bufsize)).1
  else some (pbIstreamFromBuffer buf bufsize)

/-- What `_unmarshal` answers is what its callback answers on that stream. -/
theorem unmarshalWith_eq (buf : List UInt8) (bufsize : Nat) (delimited : Bool)
    (callback : IStream → (Bool × List L) × IStream) :
    unmarshalWith buf bufsize delimited callback =
      match decodeStream buf bufsize delimited with
      | none => (false, [])
      | some stream => (callback stream).1 := by
  unfold unmarshalWith decodeStream
  cases delimited
  · rfl
  · simp only [if_true]
    rcases pbMakeStringSubstream (pbIstreamFromBuffer buf bufsize) with ⟨_ | sub, parent⟩
    · rfl
    · simp only
      rcases callback sub with ⟨⟨retval, calls⟩, sub'⟩
      cases hclose : pbCloseStringSubstream parent sub' with
      | mk ok s =>
        have htrue := closeSubstream_true parent sub'
        rw [hclose] at htrue
        obtain rfl : ok = true := htrue
        rfl

/-- The lookup answers `true` exactly when it calls a callback, and it calls one at most. -/
theorem unmarshalLookupCallback_fst (r : Registry FieldsAddr C)
    (call : Option C → Option FieldsAddr → IStream → R × IStream) (stream : IStream) :
    (unmarshalLookupCallback r call stream).1 =
      match decodeUnionmessageType stream with
      | (type, stream) =>
        if idxValid (findHandler r type) then
          let callback := (r.at (findHandler r type)).callback
          (true, [⟨callback, stream, type, (call callback type stream).1⟩])
        else (false, []) := by
  unfold unmarshalLookupCallback
  simp only
  split_ifs <;> rfl

/-- **`unmarshal` answers `true` exactly when it called a callback**, one at most, and what the
callback makes of its message has no part in the answer. -/
theorem unmarshal_iff_called (r : Registry FieldsAddr C)
    (call call' : Option C → Option FieldsAddr → IStream → R × IStream) (buf : List UInt8)
    (bufsize : Nat) (delimited : Bool) :
    ((unmarshal r call buf bufsize delimited).1 = true ↔
      (unmarshal r call buf bufsize delimited).2.length = 1) ∧
    (unmarshal r call buf bufsize delimited).2.length ≤ 1 ∧
    (unmarshal r call' buf bufsize delimited).1 = (unmarshal r call buf bufsize delimited).1 := by
  unfold unmarshal
  rw [unmarshalWith_eq, unmarshalWith_eq]
  cases decodeStream buf bufsize delimited with
  | none => exact ⟨by simp, by simp, rfl⟩
  | some stream =>
    simp only [unmarshalLookupCallback_fst]
    split_ifs
    · exact ⟨by simp, by simp, rfl⟩
    · exact ⟨by simp, by simp, rfl⟩

/-- An `InputReport` without its required `data`: `decode_union` fails, and `unmarshal` answers
`true`. -/
theorem unmarshal_true_of_failed_decode :
    let r : Registry FieldsAddr Unit := runCalls [.add (some .inputReport) (some ())]
    let result := unmarshal r
      (decodeCallback fun _ => Message.slots (⟨.zero 64⟩ : InputReport)) [0x1A, 0x00] 2 false
    result.1 = true ∧
      result.2.map (fun call => (call.type, call.result.1)) = [(some .inputReport, false)] := by
  decide +kernel

end EmbeddedTestbench.ProtoBuff
