import EmbeddedTestbench.PacketSerial.Send

/-!
# `send` stays in bounds (`PacketSerial.c`, `nanopb_generator.py`)

`SendTurn` are the turns of the loop that `send` makes, with the place of `buffer_offset` in the
buffer. All turns before the last one take fifteen bytes each, so the place is known from the
index. `Packet_size` is what the nanopb generator computes from `hid.proto` and `hid.options`: the
most bytes that a message takes without a length prefix.

Headlines:
* **`SendTurn.bounds`**: what a turn reads is inside the buffer, and what it writes inside the
  packet.
* **`send_in_bounds`**: besides, every packet fits, with its length prefix, into what the handler is
  given.
-/

namespace EmbeddedTestbench.PacketSerial

open Nanopb ProtoBuff

/-- The packet that `build_packet` makes at index `i`, with `buffer_offset` at `offset`. -/
def turnPacket (buffer : List UInt8) (i offset : Nat) : Packet :=
  buildPacket .initZero (buffer.drop offset) (chunkAt buffer.length i).2 (UInt8.ofNat i)
    (chunkAt buffer.length i).1

/-- What `marshal` returns for it, and the buffer it leaves. -/
def turnMarshal (buffer : List UInt8) (i offset : Nat) : Nat × List UInt8 :=
  marshal (Message.slots (turnPacket buffer i offset)) .packet (List.replicate packetSize 0)
    packetSize true

/-- The call of a handler with it. -/
def turnCall (buffer : List UInt8) (i offset : Nat) (handler : List UInt8 → Nat → Bool) : TxCall :=
  ⟨(buffer.drop offset).take (chunkAt buffer.length i).2, (turnMarshal buffer i offset).2,
    (turnMarshal buffer i offset).1,
    handler (turnMarshal buffer i offset).2 (turnMarshal buffer i offset).1⟩

theorem turnCall_size (buffer : List UInt8) (i offset : Nat)
    (handler : List UInt8 → Nat → Bool) :
    (turnCall buffer i offset handler).size = (turnMarshal buffer i offset).1 := by
  rw [turnCall]

/-- `send` comes to index `i`, with `buffer_offset` at `offset`, and with the status and the calls
so far. -/
inductive SendTurn (txHandler : TxHandler) (buffer : List UInt8) :
    Nat → Nat → Bool → List TxCall → Prop where
  | first : 0 < totalChunks buffer.length → SendTurn txHandler buffer 0 0 true []
  | next {i offset : Nat} {returnStatus : Bool} {calls : List TxCall}
      {handler : List UInt8 → Nat → Bool} :
    SendTurn txHandler buffer i offset returnStatus calls → txHandler calls = some handler →
      i + 1 < totalChunks buffer.length →
      SendTurn txHandler buffer (i + 1) (offset + (chunkAt buffer.length i).2)
        (returnStatus && (turnCall buffer i offset handler).answer)
        (calls ++ [turnCall buffer i offset handler])

variable {txHandler : TxHandler} {buffer : List UInt8} {i offset : Nat} {returnStatus : Bool}
  {calls : List TxCall}

/-! ## `Packet_size` -/

/-- `varint_max_size`; it raises an error where no varint is long enough. -/
def varintMaxSize (maxValue : Nat) : Option Nat :=
  (List.range' 1 10).find? fun i => maxValue >>> (i * 7) == 0

/-- The type of a field in `hid.proto`: a string with its `max_size`, a `uint32` (whose size its
`int_size` does not change), and an enum with its values. -/
inductive ProtoType where
  | string (maxSize : Nat)
  | uint32
  | enum (values : List Nat)

/-- `enc_size`. -/
def ProtoType.encSize : ProtoType → Option Nat
  | string maxSize => (varintMaxSize maxSize).map (· + maxSize)
  | uint32 => some 5
  | enum values => (values.mapM varintMaxSize).bind List.max?

/-- `Field.encoded_size`, for the tag and the type of a required field. -/
def fieldEncodedSize (field : Nat × ProtoType) : Option Nat :=
  field.2.encSize.bind fun size => (varintMaxSize (field.1 <<< 3)).map (size + ·)

/-- `Message.encoded_size`. -/
def encodedSize (fields : List (Nat × ProtoType)) : Option Nat :=
  (fields.mapM fieldEncodedSize).map List.sum

/-- `Packet` in `hid.proto`. -/
def packetProto : List (Nat × ProtoType) :=
  [(1, .string 16), (2, .uint32), (3, .uint32), (4, .enum [0, 1, 2, 3])]

theorem packetSize_generated : encodedSize packetProto = some packetSize := by
  decide +kernel

/-! ## The turns of the loop -/

/-- A turn of the loop with a handler in place. -/
theorem sendLoop_turn {handler : List UInt8 → Nat → Bool} (htx : txHandler calls = some handler)
    (n i offset : Nat) (returnStatus : Bool) :
    sendLoop txHandler buffer.length (n + 1) i (buffer.drop offset) returnStatus calls
      = sendLoop txHandler buffer.length n (i + 1)
          (buffer.drop (offset + (chunkAt buffer.length i).2))
          (returnStatus && (turnCall buffer i offset handler).answer)
          (calls ++ [turnCall buffer i offset handler]) := by
  simp only [sendLoop, htx, turnCall, turnMarshal, turnPacket, List.drop_drop]

theorem SendTurn.lt (h : SendTurn txHandler buffer i offset returnStatus calls) :
    i < totalChunks buffer.length := by
  cases h with
  | first h => exact h
  | next _ _ h => exact h

/-- What is left of `send` at a turn. -/
theorem SendTurn.send_eq (h : SendTurn txHandler buffer i offset returnStatus calls) :
    send txHandler buffer buffer.length
      = sendLoop txHandler buffer.length (totalChunks buffer.length - i) i (buffer.drop offset)
          returnStatus calls := by
  induction h with
  | first _ => rfl
  | @next i offset returnStatus calls handler hturn htx hlt ih =>
    have hleft : totalChunks buffer.length - i = totalChunks buffer.length - (i + 1) + 1 := by omega
    rw [ih, hleft, sendLoop_turn htx]

/-- Every call of the handler is made in a turn. -/
theorem exists_turn (n : Nat) : ∀ {i offset : Nat} {returnStatus : Bool} {calls : List TxCall},
    SendTurn txHandler buffer i offset returnStatus calls →
    totalChunks buffer.length = i + n →
    ∀ call ∈ (sendLoop txHandler buffer.length n i (buffer.drop offset) returnStatus calls).2,
      call ∈ calls ∨ ∃ i offset returnStatus calls handler,
        SendTurn txHandler buffer i offset returnStatus calls ∧ txHandler calls = some handler ∧
          call = turnCall buffer i offset handler := by
  induction n with
  | zero => exact fun h hn => absurd h.lt (by omega)
  | succ n ih =>
    intro i offset returnStatus calls hturn hn call hcall
    cases htx : txHandler calls with
    | none =>
      rw [sendLoop_none n _ _ htx] at hcall
      exact Or.inl hcall
    | some handler =>
      rw [sendLoop_turn htx] at hcall
      have hthis : ∀ call ∈ calls ++ [turnCall buffer i offset handler],
          call ∈ calls ∨ ∃ i offset returnStatus calls handler,
            SendTurn txHandler buffer i offset returnStatus calls ∧ txHandler calls = some handler ∧
              call = turnCall buffer i offset handler := by
        intro call hmem
        rcases List.mem_append.mp hmem with hold | hnew
        · exact Or.inl hold
        · exact Or.inr ⟨i, offset, returnStatus, calls, handler, hturn, htx,
            List.mem_singleton.mp hnew⟩
      cases n with
      | zero => exact hthis call hcall
      | succ n =>
        rcases ih (hturn.next htx (by omega)) (by omega) call hcall with hold | hnew
        · exact hthis call hold
        · exact Or.inr hnew

/-! ## Bounds -/

/-- All turns before took fifteen bytes each. -/
theorem SendTurn.offset_eq (h : SendTurn txHandler buffer i offset returnStatus calls) :
    offset = 15 * i := by
  induction h with
  | first _ => rfl
  | next _ _ hlt ih =>
    rw [chunkAt_of_lt hlt, ih]
    omega

/-- What a turn takes is inside the buffer, and fifteen bytes at most. -/
theorem SendTurn.bounds (hcount : (buffer.length + 14) / 15 < 2 ^ 31)
    (h : SendTurn txHandler buffer i offset returnStatus calls) :
    (chunkAt buffer.length i).2 ≤ 15 ∧ offset + (chunkAt buffer.length i).2 ≤ buffer.length := by
  have hlt := h.lt
  have hpos : 1 ≤ buffer.length := by
    by_contra hzero
    have : buffer.length = 0 := by omega
    rw [this] at hlt
    exact absurd hlt (Nat.not_lt_zero i)
  have htotal := (Sendable.mk hpos hcount).totalChunks
  rw [h.offset_eq]
  by_cases hlast : i + 1 < totalChunks buffer.length
  · rw [chunkAt_of_lt hlast]
    dsimp only
    omega
  · rw [chunkAt_last (by omega)]
    split_ifs <;> dsimp only <;> omega

/-- The last byte of the array is never written. -/
theorem buildPacket_last {chunk : List UInt8} (h : chunk.length ≤ 15) (sequenceNumber : UInt8)
    (flag : PacketFlag) :
    (buildPacket .initZero chunk chunk.length sequenceNumber flag).data.bytes[15]? = some 0 := by
  have hle := cString_length_le chunk
  rw [buildPacket_data h, List.getElem?_append_right (by omega), List.getElem?_replicate,
    if_pos (by omega)]

theorem SendTurn.data_last (hcount : (buffer.length + 14) / 15 < 2 ^ 31)
    (h : SendTurn txHandler buffer i offset returnStatus calls) :
    (turnPacket buffer i offset).data.bytes[15]? = some 0 := by
  obtain ⟨hlen, hinside⟩ := h.bounds hcount
  have hchunk : ((buffer.drop offset).take (chunkAt buffer.length i).2).length
      = (chunkAt buffer.length i).2 :=
    List.length_take_of_le (by rw [List.length_drop]; omega)
  have hlast := buildPacket_last (hchunk.trans_le hlen) (UInt8.ofNat i) (chunkAt buffer.length i).1
  rw [hchunk, buildPacket_take] at hlast
  exact hlast

/-- A packet fits with its length prefix, whatever is in it. -/
theorem turnMarshal_le (buffer : List UInt8) (i offset : Nat) :
    (turnMarshal buffer i offset).1 ≤ packetSize := by
  rw [turnMarshal, Packet.marshal_packet]
  exact Packet.frame_length_le _

/-- `send` makes its calls in its turns. -/
theorem send_calls (txHandler : TxHandler) (buffer : List UInt8) :
    ∀ call ∈ (send txHandler buffer buffer.length).2, ∃ i offset returnStatus calls handler,
      SendTurn txHandler buffer i offset returnStatus calls ∧ txHandler calls = some handler ∧
        call = turnCall buffer i offset handler := by
  intro call hcall
  by_cases hpos : 0 < totalChunks buffer.length
  · rw [SendTurn.send_eq (.first hpos)] at hcall
    rcases exists_turn _ (.first hpos) (by omega) call hcall with hnone | hturn
    · exact absurd hnone List.not_mem_nil
    · exact hturn
  · have hnone : totalChunks buffer.length = 0 := by omega
    rw [send, hnone, sendLoop] at hcall
    exact absurd hcall List.not_mem_nil

/-- **`send` stays in bounds and never hands over a failed encoding**, for every size whose chunk
count a non-negative `int` holds. In every turn `build_packet` gets at most fifteen bytes, all of
them inside the buffer, and leaves the last byte of `data` zero; `marshal` does not fail, and the
handler gets no more than `Packet_size` bytes. The turns are those of `send`: what is left of it at
a turn is its loop from there, and it makes every call in one of them. -/
theorem send_in_bounds (txHandler : TxHandler) (buffer : List UInt8)
    (hcount : (buffer.length + 14) / 15 < 2 ^ 31) :
    (∀ i offset returnStatus calls, SendTurn txHandler buffer i offset returnStatus calls →
      send txHandler buffer buffer.length
        = sendLoop txHandler buffer.length (totalChunks buffer.length - i) i (buffer.drop offset)
            returnStatus calls ∧
      let length := (chunkAt buffer.length i).2
      (length ≤ 15 ∧ offset + length ≤ buffer.length) ∧
      (strncpy Packet.initZero.data.bytes (buffer.drop offset) length).length = 16 ∧
      (turnPacket buffer i offset).data.bytes[15]? = some 0 ∧
      (turnMarshal buffer i offset).1 ≠ sizeMax) ∧
    (∀ call ∈ (send txHandler buffer buffer.length).2,
      (∃ i offset returnStatus calls handler,
        SendTurn txHandler buffer i offset returnStatus calls ∧ txHandler calls = some handler ∧
          call = turnCall buffer i offset handler) ∧ call.size ≤ packetSize) ∧
    encodedSize packetProto = some packetSize := by
  refine ⟨?_, ?_, packetSize_generated⟩
  · intro i offset returnStatus calls hturn
    refine ⟨hturn.send_eq, ?_⟩
    intro length
    obtain ⟨hlen, hinside⟩ := hturn.bounds hcount
    have hsixteen : length ≤ Packet.initZero.data.bytes.length := hlen.trans (by decide)
    have hcopy := strncpy_length (buffer.drop offset) hsixteen
    have hmarshal := turnMarshal_le buffer i offset
    have hmax : packetSize < sizeMax := by decide
    exact ⟨⟨hlen, hinside⟩, hcopy, hturn.data_last hcount, by omega⟩
  · intro call hcall
    have hturn := send_calls txHandler buffer call hcall
    refine ⟨hturn, ?_⟩
    obtain ⟨i, offset, _, _, handler, -, -, rfl⟩ := hturn
    rw [turnCall_size]
    exact turnMarshal_le buffer i offset

/-- The second of two full chunks and a last byte, none of which a string ends in. -/
theorem send_in_bounds_31 :
    let buffer : List UInt8 := List.replicate 31 0xFF
    (turnMarshal buffer 1 15).1 ≠ sizeMax ∧
      (send (fun _ => some fun _ _ => true) buffer 31).2.all (fun call => call.size ≤ packetSize) := by
  intro buffer
  have hlength : buffer.length = 31 := List.length_replicate
  have hcount : (buffer.length + 14) / 15 < 2 ^ 31 := by
    rw [hlength]
    decide
  obtain ⟨hturns, hcalls, -⟩ := send_in_bounds (fun _ => some fun _ _ => true) buffer hcount
  have htotal : totalChunks buffer.length = 3 := by
    rw [hlength]
    decide
  have hfirst : SendTurn (fun _ => some fun _ _ => true) buffer 0 0 true [] :=
    .first (by rw [htotal]; decide)
  have hchunk : 0 + (chunkAt buffer.length 0).2 = 15 := by
    rw [hlength]
    decide
  have hsecond := hfirst.next rfl (by rw [htotal]; decide)
  rw [hchunk] at hsecond
  refine ⟨(hturns _ _ _ _ hsecond).2.2.2.2, ?_⟩
  rw [List.all_eq_true]
  intro call hcall
  rw [← hlength] at hcall
  exact decide_eq_true (hcalls call hcall).2

end EmbeddedTestbench.PacketSerial
