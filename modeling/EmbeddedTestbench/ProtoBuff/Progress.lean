import EmbeddedTestbench.ProtoBuff.Unmarshal

/-!
# The loop of `decode_unionmessage_type` (`ProtoBuff.c`)

`LoopRun` is the loop as it stands in the source, without fuel: how many times its body is run,
where the stream stands behind every call of `pb_decode_tag` and of `pb_skip_field`, and what is
returned. A failed skip may take nothing, a part of its field or all that is left; the key in front
of it was at least a byte, and that bounds the number of turns.

Headlines:
* **`LoopRun.unique`**, **`exists_loopRun`**: the loop has one run, and that is what
  `decodeUnionmessageType` computes.
* **`decodeUnionmessageType_terminates`**: it ends within `bytes_left` turns, and stays inside the
  buffer.
-/

namespace EmbeddedTestbench.ProtoBuff

open Nanopb IStream

/-- A run of the loop from `stream`: the number of turns, the streams behind each call of
`pb_decode_tag` and `pb_skip_field`, and what the function returns. -/
inductive LoopRun : IStream → Nat → List IStream → Option FieldsAddr × IStream → Prop where
  /-- `pb_decode_tag` answers `false`. -/
  | stop {stream stream' : IStream} {eof : Bool} :
    pbDecodeTag stream = (.stop eof, stream') → LoopRun stream 0 [stream'] (none, stream')
  /-- A union field is found. -/
  | found {stream stream' : IStream} {wireType tag : Nat} {ptr : Option FieldsAddr} :
    pbDecodeTag stream = (.field wireType tag, stream') → unionPtr wireType tag = some ptr →
      LoopRun stream 1 [stream'] (ptr, stream')
  /-- It was not ours, and whether the skip failed is not looked at. -/
  | next {stream stream' : IStream} {wireType tag turns : Nat} {trace : List IStream}
      {result : Option FieldsAddr × IStream} :
    pbDecodeTag stream = (.field wireType tag, stream') → unionPtr wireType tag = none →
      LoopRun (pbSkipField stream' wireType).2 turns trace result →
      LoopRun stream (turns + 1) (stream' :: (pbSkipField stream' wireType).2 :: trace) result

/-- A key has one wire type and one tag. -/
theorem tag_unique {stream s s' : IStream} {wireType tag wireType' tag' : Nat}
    (h : pbDecodeTag stream = (.field wireType tag, s))
    (h' : pbDecodeTag stream = (.field wireType' tag', s')) :
    wireType = wireType' ∧ tag = tag' ∧ s = s' := by
  obtain ⟨hkey, hs⟩ := Prod.mk.inj (h.symm.trans h')
  obtain ⟨hwire, htag⟩ := TagRead.field.inj hkey
  exact ⟨hwire, htag, hs⟩

/-- The loop has one run at most. -/
theorem LoopRun.unique {stream : IStream} {turns turns' : Nat} {trace trace' : List IStream}
    {result result' : Option FieldsAddr × IStream} (h : LoopRun stream turns trace result)
    (h' : LoopRun stream turns' trace' result') :
    turns = turns' ∧ trace = trace' ∧ result = result' := by
  induction h generalizing turns' trace' result' with
  | stop htag =>
    cases h' with
    | stop htag' =>
      obtain ⟨-, rfl⟩ := Prod.mk.inj (htag.symm.trans htag')
      exact ⟨rfl, rfl, rfl⟩
    | found htag' _ => exact absurd (htag.symm.trans htag') (by simp)
    | next htag' _ _ => exact absurd (htag.symm.trans htag') (by simp)
  | found htag hptr =>
    cases h' with
    | stop htag' => exact absurd (htag.symm.trans htag') (by simp)
    | found htag' hptr' =>
      obtain ⟨rfl, rfl, rfl⟩ := tag_unique htag htag'
      obtain rfl := Option.some.inj (hptr.symm.trans hptr')
      exact ⟨rfl, rfl, rfl⟩
    | next htag' hptr' _ =>
      obtain ⟨rfl, rfl, rfl⟩ := tag_unique htag htag'
      exact absurd (hptr.symm.trans hptr') (by simp)
  | next htag hptr _ ih =>
    cases h' with
    | stop htag' => exact absurd (htag.symm.trans htag') (by simp)
    | found htag' hptr' =>
      obtain ⟨rfl, rfl, rfl⟩ := tag_unique htag htag'
      exact absurd (hptr.symm.trans hptr') (by simp)
    | next htag' hptr' hrest =>
      obtain ⟨rfl, rfl, rfl⟩ := tag_unique htag htag'
      obtain ⟨rfl, rfl, rfl⟩ := ih hrest
      exact ⟨rfl, rfl, rfl⟩

/-- `stream` stands somewhere in the window `w`, with the same memory behind it. -/
def Inside (w t : List UInt8) (stream : IStream) : Prop :=
  ∃ u r e, w = u ++ r ∧ stream = window r t e

theorem Inside.trans {w t x : List UInt8} {e : Option String} {stream : IStream}
    (h : Inside w t (window x t e)) (h' : Inside x t stream) : Inside w t stream := by
  obtain ⟨u, r, e', rfl, hx⟩ := h
  obtain ⟨rfl, -, -⟩ := window_inj.mp hx
  obtain ⟨u', r', e'', rfl, rfl⟩ := h'
  exact ⟨u ++ u', r', e'', (List.append_assoc _ _ _).symm, rfl⟩

theorem inside_of_contained {α : Type} {f : IStream → α × IStream} (hf : Contained f)
    (w t : List UInt8) (e : Option String) : Inside w t (f (window w t e)).2 := by
  obtain ⟨u, r, a, msg, rfl, hrun⟩ := hf w
  exact ⟨u, r, e.or msg, rfl, by rw [hrun t e]⟩

/-- **The loop ends**: a turn takes a byte at least, and every step stays in the window. -/
theorem exists_loopRun (w t : List UInt8) (e : Option String) :
    ∃ turns trace,
      LoopRun (window w t e) turns trace (decodeUnionmessageType (window w t e)) ∧
      turns ≤ w.length ∧ ∀ stream ∈ trace, Inside w t stream := by
  -- on the bytes that are left
  induction hn : w.length using Nat.strongRecOn generalizing w e with
  | ind n ih =>
    have hinside := inside_of_contained pbDecodeTag_prefixReader.contained w t e
    rw [decodeUnionmessageType_eq]
    cases htag : pbDecodeTag (window w t e) with
    | mk a s =>
      rw [htag] at hinside
      cases a with
      | stop eof =>
        exact ⟨0, [s], .stop htag, Nat.zero_le _, List.forall_mem_singleton.mpr hinside⟩
      | field wireType tag =>
        obtain ⟨k, x, rfl, rfl, hpos⟩ := pbDecodeTag_consumes htag
        rw [List.length_append] at hn
        dsimp only at hinside ⊢
        cases hptr : unionPtr wireType tag with
        | some ptr =>
          exact ⟨1, _, .found htag hptr, by omega, List.forall_mem_singleton.mpr hinside⟩
        | none =>
          obtain ⟨u, r, e', rfl, hskip⟩ := skip_window x t e wireType
          have hskipped : Inside (k ++ (u ++ r)) t (window r t e') :=
            hinside.trans ⟨u, r, e', rfl, rfl⟩
          rw [List.length_append] at hn
          obtain ⟨turns, trace, hrun, hturns, htrace⟩ := ih r.length (by omega) r e' rfl
          rw [← hskip] at hrun
          refine ⟨turns + 1, _, .next htag hptr hrun, by omega, ?_⟩
          rw [hskip]
          exact List.forall_mem_cons.mpr ⟨hinside, List.forall_mem_cons.mpr
            ⟨hskipped, fun stream hmem => hskipped.trans (htrace stream hmem)⟩⟩

/-- The walk does not look behind its window. -/
theorem unionTypeLoop_contained : ∀ n, Contained (unionTypeLoop n)
  | 0 => contained_pure none
  | n + 1 => by
    refine pbDecodeTag_prefixReader.contained.step fun key => ?_
    rcases key with ⟨wireType, tag⟩ | eof
    · cases hptr : unionPtr wireType tag with
      | some ptr =>
        refine ⟨_, contained_pure ptr, fun s s' h => ?_⟩
        rw [unionTypeLoop, h]
        simp only [hptr]
      | none =>
        have hnext : Contained fun s => unionTypeLoop n (pbSkipField s wireType).2 :=
          (pbSkipField_prefixReader wireType).contained.step fun _ =>
            ⟨_, unionTypeLoop_contained n, fun s s' h => by rw [h]⟩
        refine ⟨_, hnext, fun s s' h => ?_⟩
        rw [unionTypeLoop, h]
        simp only [hptr]
    · exact ⟨_, contained_pure none, fun s s' h => by rw [unionTypeLoop, h]⟩

theorem decodeUnionmessageType_contained : Contained decodeUnionmessageType := fun w =>
  unionTypeLoop_contained (w.length + 1) w

/-- The stream that stands at a position of a buffer, with `t` behind the buffer. -/
def streamAt (buf t : List UInt8) (position : Nat) (e : Option String) : IStream :=
  ⟨(buf ++ t).drop position, buf.length - position, e⟩

theorem streamAt_eq_window {buf : List UInt8} {position : Nat} (h : position ≤ buf.length)
    (t : List UInt8) (e : Option String) :
    streamAt buf t position e = window (buf.drop position) t e := by
  rw [streamAt, window, List.drop_append_of_le_length h, List.length_drop]

/-- **The loop of `decode_unionmessage_type` ends within `bytes_left` turns**, from every position
of every buffer. Behind every call of `pb_decode_tag` and `pb_skip_field`, failed ones too, the
position and `bytes_left` make up the length of the buffer, and what is behind the buffer has no
part in any of it. -/
theorem decodeUnionmessageType_terminates (buf t : List UInt8) (position : Nat)
    (h : position ≤ buf.length) (e : Option String) (stream : IStream)
    (hstart : stream = streamAt buf t position e) :
    ∃ turns trace, LoopRun stream turns trace (decodeUnionmessageType stream) ∧
      turns ≤ stream.bytesLeft ∧
      (∀ s ∈ trace, ∃ position', position ≤ position' ∧ position' + s.bytesLeft = buf.length ∧
        s.state = (buf ++ t).drop position') ∧
      ∀ t', (decodeUnionmessageType (streamAt buf t' position e)).1
          = (decodeUnionmessageType stream).1 ∧
        (decodeUnionmessageType (streamAt buf t' position e)).2.bytesLeft
          = (decodeUnionmessageType stream).2.bytesLeft := by
  have hstream : stream = window (buf.drop position) t e := by
    rw [hstart, streamAt_eq_window h]
  obtain ⟨turns, trace, hrun, hturns, htrace⟩ := exists_loopRun (buf.drop position) t e
  refine ⟨turns, trace, by rwa [hstream], by rwa [hstream], fun s hs => ?_, fun t' => ?_⟩
  · obtain ⟨u, r, e', hsplit, rfl⟩ := htrace s hs
    have hlength := congrArg List.length hsplit
    rw [List.length_drop, List.length_append] at hlength
    refine ⟨position + u.length, Nat.le_add_right _ _, ?_, ?_⟩
    · rw [window_bytesLeft]
      omega
    · rw [window_state, ← List.drop_drop, List.drop_append_of_le_length h, hsplit, List.append_assoc,
        List.drop_left]
  · obtain ⟨u, r, a, msg, hsplit, hwindow⟩ := decodeUnionmessageType_contained (buf.drop position)
    rw [streamAt_eq_window h, hstream, hwindow t' e, hwindow t e]
    exact ⟨rfl, rfl⟩

/-- A field that is cut off, behind the first byte of a buffer: the skip fails behind its length,
and the rest is read as the key of another field. -/
theorem decodeUnionmessageType_terminates_cut :
    ∃ turns trace, LoopRun (streamAt [0xFF, 0x22, 0x09, 0x20] [0x1A] 1 none) turns trace
        (decodeUnionmessageType (streamAt [0xFF, 0x22, 0x09, 0x20] [0x1A] 1 none)) ∧
      turns ≤ 3 := by
  obtain ⟨turns, trace, hrun, hturns, -⟩ :=
    decodeUnionmessageType_terminates [0xFF, 0x22, 0x09, 0x20] [0x1A] 1 (by decide) none _ rfl
  exact ⟨turns, trace, hrun, hturns⟩

end EmbeddedTestbench.ProtoBuff
