import Mathlib.Data.List.Forall2
import EmbeddedTestbench.Nanopb.Containment
import EmbeddedTestbench.ProtoBuff.Dispatch
import EmbeddedTestbench.ProtoBuff.Progress

/-!
# Submessages and frames are on their own (`ProtoBuff.c`, `pb_decode.c`)

A length prefix cuts its bytes out of the stream. What is made of them does not depend on what
follows, and whatever happens inside, the stream goes on right behind them.

Headlines:
* **`decodeUnion_consumes`**: `decode_union` takes one submessage, also when it cannot decode it.
* **`unmarshal_frame`**: framed and unframed unmarshalling agree, and a length prefix that is
  rejected or too long calls nothing.
-/

namespace EmbeddedTestbench.ProtoBuff

open Nanopb IStream

/-! ## `decode_union` -/

theorem linkedTable_fieldsAt : ∀ a : FieldsAddr, LinkedTable (fieldsAt a)
  | .deviceDescriptor => by unfold LinkedTable; decide
  | .hidReport => by unfold LinkedTable; decide
  | .inputReport => by unfold LinkedTable; decide
  | .unionMessage => by unfold LinkedTable; decide
  | .packet => by unfold LinkedTable; decide
  | .other _ => by unfold LinkedTable; exact List.forall_mem_nil _

theorem decodeUnion_contained (fields : FieldsAddr) (dest : List Slot) :
    Contained (decodeUnion fields dest) := by
  have hdecode := pbDecode_contained linkedTable_fieldsAt (linkedTable_fieldsAt fields) dest
  refine hdecode.substream (false, dest) id ?_ ?_
  · intro s s' hmake
    rw [decodeUnion, hmake]
  · intro s sub parent parent' hmake hclose
    rw [decodeUnion, hmake]
    simp only [hclose, id]

/-- The bytes that may be read through a stream. -/
def presented (s : IStream) : List UInt8 := s.state.take s.bytesLeft

/-- Two streams present the same bytes, with the same `bytes_left` and error message. -/
structure SamePresented (s s' : IStream) : Prop where
  bytes : presented s = presented s'
  bytesLeft : s.bytesLeft = s'.bytesLeft
  errmsg : s.errmsg = s'.errmsg

/-- What a callback answers depends on the bytes its stream presents, not on what is behind them.
Where it leaves the stream is its own affair. -/
def PresentedOnly {α : Type} (callback : IStream → α × IStream) : Prop :=
  ∀ w t t' e, (callback (window w t e)).1 = (callback (window w t' e)).1

/-- The same callback is called for the same type, on streams that present the same. -/
structure SameCall {C R : Type} (c c' : CallRecord C R) : Prop where
  callback : c.callback = c'.callback
  type : c.type = c'.type
  stream : SamePresented c.stream c'.stream

theorem presented_window (w t : List UInt8) (e : Option String) : presented (window w t e) = w :=
  List.take_left

theorem samePresented_window (w t t' : List UInt8) (e : Option String) :
    SamePresented (window w t e) (window w t' e) :=
  ⟨by rw [presented_window, presented_window], rfl, rfl⟩

/-- Every reader that stays inside its window is such a callback. -/
theorem presentedOnly_of_contained {α : Type} {f : IStream → α × IStream} (hf : Contained f) :
    PresentedOnly f := by
  intro w t t' e
  obtain ⟨u, r, a, msg, rfl, hrun⟩ := hf w
  rw [hrun t e, hrun t' e]

/-- The length prefix of a buffer is rejected, or exceeds the bytes that follow it. -/
def LengthRejected (buf : List UInt8) (bufsize : Nat) : Prop :=
  match pbDecodeVarint32 (pbIstreamFromBuffer buf bufsize) with
  | (none, _) => True
  | (some size, stream) => stream.bytesLeft < size.toNat

variable {C R L : Type}

theorem decodeStream_of_rejected {buf : List UInt8} {bufsize : Nat}
    (h : LengthRejected buf bufsize) : decodeStream buf bufsize true = none := by
  rw [decodeStream, if_pos rfl, pbMakeStringSubstream]
  unfold LengthRejected at h
  rcases hd : pbDecodeVarint32 (pbIstreamFromBuffer buf bufsize) with ⟨_ | size, stream⟩
  · rfl
  · rw [hd] at h
    exact congrArg Prod.fst (if_pos h)

/-- The callbacks of the program answer by what their stream presents. -/
theorem decodeCallback_presentedOnly (dest : FieldsAddr → List Slot) (callback : Option C)
    (type : Option FieldsAddr) : PresentedOnly (decodeCallback dest callback type) := by
  cases type with
  | none => exact presentedOnly_of_contained (contained_pure (false, []))
  | some type => exact presentedOnly_of_contained (decodeUnion_contained type (dest type))

/-- The lookup makes the same calls on streams that present the same. -/
theorem unmarshalLookupCallback_presented (r : Registry FieldsAddr C)
    (call : Option C → Option FieldsAddr → IStream → R × IStream) (w t t' : List UInt8)
    (e : Option String) :
    let run := (unmarshalLookupCallback r call (window w t e)).1
    let run' := (unmarshalLookupCallback r call (window w t' e)).1
    run.1 = run'.1 ∧ List.Forall₂ SameCall run.2 run'.2 ∧
      ((∀ callback type, PresentedOnly (call callback type)) →
        run.2.map CallRecord.result = run'.2.map CallRecord.result) := by
  obtain ⟨u, x, type, msg, rfl, hwalk⟩ := decodeUnionmessageType_contained w
  simp only [unmarshalLookupCallback_fst, hwalk]
  split_ifs
  · refine ⟨rfl, .cons ⟨rfl, rfl, samePresented_window _ _ _ _⟩ .nil, fun hcall => ?_⟩
    exact congrArg (fun result => [result]) (hcall _ type x t t' (e.or msg))
  · exact ⟨rfl, .nil, fun _ => rfl⟩

/-- **Framed and unframed unmarshalling agree**, whatever follows the frame and however much of it
the callback reads: the callback gets a stream that presents the bytes of the frame, the same calls
are made, and the answer is the same. A length prefix that is rejected, or that exceeds the bytes
behind it, answers `false` and calls nothing. The callback of `unmarshal` is the lookup. -/
theorem unmarshal_frame (r : Registry FieldsAddr C)
    (call : Option C → Option FieldsAddr → IStream → R × IStream)
    (callback : IStream → (Bool × List L) × IStream) :
    (∀ p t : List UInt8, p.length < 2 ^ 32 →
      let framed := lengthPrefixed p ++ t
      (presented (window p t none) = p ∧ (window p t none).bytesLeft = p.length ∧
        explicitUnmarshal framed framed.length true callback = (callback (window p t none)).1 ∧
        explicitUnmarshal p p.length false callback = (callback (window p [] none)).1 ∧
        (PresentedOnly callback →
          explicitUnmarshal framed framed.length true callback
            = explicitUnmarshal p p.length false callback)) ∧
      let run := unmarshal r call framed framed.length true
      let plain := unmarshal r call p p.length false
      run = (unmarshalLookupCallback r call (window p t none)).1 ∧
        plain = (unmarshalLookupCallback r call (window p [] none)).1 ∧
        run.1 = plain.1 ∧ List.Forall₂ SameCall run.2 plain.2 ∧
        ((∀ callback type, PresentedOnly (call callback type)) →
          run.2.map CallRecord.result = plain.2.map CallRecord.result)) ∧
    ∀ buf bufsize, LengthRejected buf bufsize →
      explicitUnmarshal buf bufsize true callback = (false, []) ∧
        unmarshal r call buf bufsize true = (false, []) := by
  constructor
  · intro p t hp framed
    have hframed : decodeStream framed framed.length true = some (window p t none) :=
      decodeStream_delimited hp t
    have hplain := decodeStream_undelimited p
    refine ⟨⟨presented_window p t none, rfl, ?_, ?_, fun hcallback => ?_⟩, ?_⟩
    · rw [explicitUnmarshal, unmarshalWith_eq, hframed]
    · rw [explicitUnmarshal, unmarshalWith_eq, hplain]
    · rw [explicitUnmarshal, explicitUnmarshal, unmarshalWith_eq, unmarshalWith_eq, hframed, hplain]
      exact hcallback p t [] none
    · simp only [unmarshal, unmarshalWith_eq, hframed, hplain]
      exact ⟨trivial, trivial, unmarshalLookupCallback_presented r call p t [] none⟩
  · intro buf bufsize hrejected
    rw [explicitUnmarshal, unmarshal, unmarshalWith_eq, unmarshalWith_eq,
      decodeStream_of_rejected hrejected]
    exact ⟨rfl, rfl⟩

/-- A callback that reads a byte, a length prefix that is cut off, and a report for a handler. -/
theorem unmarshal_frame_byte :
    let callback : IStream → (Bool × List UInt8) × IStream := fun stream =>
      ((true, (pbReadbyte stream).1.toList), (pbReadbyte stream).2)
    let r : Registry FieldsAddr Unit := runCalls [.add (some .inputReport) (some ())]
    let call : Option Unit → Option FieldsAddr → IStream → (Bool × List Slot) × IStream :=
      decodeCallback fun _ => Message.slots (⟨.zero 64⟩ : InputReport)
    let framed := [0x06, 0x1A, 0x04, 0x0A, 0x02, 0x68, 0x69, 0xFF]
    explicitUnmarshal [0x02, 0x41, 0x42, 0xFF] 4 true callback = (true, [0x41]) ∧
      explicitUnmarshal [0x80] 1 true callback = (false, []) ∧
      (unmarshal r call framed 8 true).1 = true ∧
      (unmarshal r call framed 8 true).2.map (fun record => record.result.1) = [true] := by
  intro callback r call framed
  obtain ⟨hagree, hrejected⟩ := unmarshal_frame r call callback
  have hframe : lengthPrefixed [0x41, 0x42] ++ [0xFF] = [0x02, 0x41, 0x42, 0xFF] := by
    decide +kernel
  have hreport : lengthPrefixed [0x1A, 0x04, 0x0A, 0x02, 0x68, 0x69] ++ [0xFF] = framed := by
    decide +kernel
  obtain ⟨⟨-, -, hrun, -⟩, -⟩ := hagree [0x41, 0x42] [0xFF] (by decide)
  obtain ⟨-, -, -, hsame, -, hresults⟩ := hagree [0x1A, 0x04, 0x0A, 0x02, 0x68, 0x69] [0xFF]
    (by decide)
  rw [hframe] at hrun
  rw [hreport] at hsame hresults
  have hplain : (unmarshal r call [0x1A, 0x04, 0x0A, 0x02, 0x68, 0x69] 6 false).1 = true ∧
      (unmarshal r call [0x1A, 0x04, 0x0A, 0x02, 0x68, 0x69] 6 false).2.map
        (fun record => record.result.1) = [true] := by
    decide +kernel
  have hresult := congrArg (List.map Prod.fst)
    (hresults fun callback type => decodeCallback_presentedOnly _ callback type)
  rw [List.map_map, List.map_map] at hresult
  exact ⟨hrun, (hrejected [0x80] 1 trivial).1, hsame.trans hplain.1, hresult.trans hplain.2⟩

end EmbeddedTestbench.ProtoBuff
