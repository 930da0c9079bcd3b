import EmbeddedTestbench.Lib.Chunks
import EmbeddedTestbench.PacketSerial.Build
import EmbeddedTestbench.PacketSerial.Frame

/-!
# `send` (`PacketSerial.c`)

`send` cuts a buffer into chunks and hands one frame for each to the handler. A `TxHandler` is
what is in `tx_handler` after some calls, and what it answers; both may depend on all the calls
before. Besides its result `send` gives back the calls it made, each with the chunk that
`build_packet` was given for it.

The headline is **`send_eq`**: a `send` with a handler in place hands over the frames of `outgoing`,
in order and whatever the handler answers.
-/

namespace EmbeddedTestbench.PacketSerial

open Nanopb ProtoBuff EmbeddedTestbench.Lib

/-! ## Definitions -/

/-- A call of `tx_handler`. -/
structure TxCall where
  chunk : List UInt8
  buffer : List UInt8
  size : Nat
  answer : Bool
  deriving DecidableEq, Repr

/-- `tx_handler` after some calls; `none` is `NULL`. -/
abbrev TxHandler := List TxCall → Option (List UInt8 → Nat → Bool)

/-- `data_chunk_size`: `member_size(Packet, data) - 1`. -/
def dataChunkSize : Nat := 16 - 1

/-- `total_chunks`, with the wraparound of `size_t` and of `unsigned int`. -/
def totalChunks (size : Nat) : Nat :=
  (size + dataChunkSize - 1) % 2 ^ 64 / dataChunkSize % 2 ^ 32

/-- The four branches of the loop: `flag` and `packet_data_chunk_size` at index `i`. -/
def chunkAt (size i : Nat) : PacketFlag × Nat :=
  if i = 0 ∧ totalChunks size = 1 then (.firstlast, size)
  else if i = 0 ∧ totalChunks size > 1 then (.first, dataChunkSize)
  else if i > 0 ∧ i < totalChunks size - 1 then (.continue, dataChunkSize)
  else (.last, size % dataChunkSize)

/-- The loop of `send` with `n` turns to go, at index `i`. -/
def sendLoop (txHandler : TxHandler) (size : Nat) : Nat → Nat → List UInt8 → Bool → List TxCall →
    Bool × List TxCall
  | 0, _, _, returnStatus, calls => (returnStatus, calls)
  | n + 1, i, bufferOffset, returnStatus, calls =>
    match chunkAt size i with
    | (flag, packetDataChunkSize) =>
      let packet := buildPacket .initZero bufferOffset packetDataChunkSize (UInt8.ofNat i) flag
      match marshal (Message.slots packet) .packet (List.replicate packetSize 0) packetSize true with
      | (size', buffer) =>
        match txHandler calls with
        | none => (false, calls)
        | some handler =>
          let txResult := handler buffer size'
          sendLoop txHandler size n (i + 1) (bufferOffset.drop packetDataChunkSize)
            (returnStatus && txResult)
            (calls ++ [⟨bufferOffset.take packetDataChunkSize, buffer, size', txResult⟩])

/-- `send`, for a chunk count that a positive `int` holds. -/
def send (txHandler : TxHandler) (buffer : List UInt8) (size : Nat) : Bool × List TxCall :=
  sendLoop txHandler size (totalChunks size) 0 buffer true []

/-! ## The chunks -/

variable {size i : Nat}

/-- The domain of the results: a chunk at least, and a chunk count that a positive `int` holds. -/
structure Sendable (size : Nat) : Prop where
  pos : 1 ≤ size
  count : (size + 14) / 15 < 2 ^ 31

instance (size : Nat) : Decidable (Sendable size) :=
  decidable_of_iff (1 ≤ size ∧ (size + 14) / 15 < 2 ^ 31)
    ⟨fun h => ⟨h.1, h.2⟩, fun h => ⟨h.pos, h.count⟩⟩

theorem Sendable.totalChunks (h : Sendable size) : totalChunks size = (size - 1) / 15 + 1 := by
  have hpos := h.pos
  have hcount := h.count
  have hnowrap : (size + 14) % 2 ^ 64 = size + 14 := Nat.mod_eq_of_lt (by omega)
  calc PacketSerial.totalChunks size = (size + 14) % 2 ^ 64 / 15 % 2 ^ 32 := rfl
    _ = (size + 14) / 15 := by rw [hnowrap, Nat.mod_eq_of_lt (by omega)]
    _ = (size - 1) / 15 + 1 := by omega

/-- All chunks but the last are of full length. -/
theorem chunkAt_of_lt (h : i + 1 < totalChunks size) :
    chunkAt size i = (if i = 0 then .first else .continue, 15) := by
  unfold chunkAt
  rw [if_neg (by omega)]
  by_cases hi : i = 0
  · rw [if_pos ⟨hi, by omega⟩, if_pos hi]
    rfl
  · rw [if_neg (by omega), if_pos (by omega), if_neg hi]
    rfl

/-- The last chunk is short, and empty where all chunks before it are the whole buffer. -/
theorem chunkAt_last (h : i + 1 = totalChunks size) :
    chunkAt size i = if i = 0 then (.firstlast, size) else (.last, size % 15) := by
  unfold chunkAt
  by_cases hi : i = 0
  · rw [if_pos ⟨hi, by omega⟩, if_pos hi]
  · rw [if_neg (by omega), if_neg (by omega), if_neg (by omega), if_neg hi]
    rfl

/-- The length of the last chunk. -/
def lastChunk (size : Nat) : Nat := if size ≤ 15 then size else size % 15

/-- The lengths of the chunks. -/
def chunkLengths (size : Nat) : List Nat :=
  (List.range (totalChunks size)).map fun i => (chunkAt size i).2

theorem chunkLengths_eq (h : Sendable size) :
    chunkLengths size = List.replicate ((size - 1) / 15) 15 ++ [lastChunk size] := by
  have hfull : (List.range ((size - 1) / 15)).map (fun i => (chunkAt size i).2)
      = List.replicate ((size - 1) / 15) 15 := by
    refine List.eq_replicate_iff.mpr ⟨by simp, fun l hl => ?_⟩
    obtain ⟨i, hi, rfl⟩ := List.mem_map.mp hl
    rw [List.mem_range] at hi
    rw [chunkAt_of_lt (by rw [h.totalChunks]; omega)]
  have hlast : (chunkAt size ((size - 1) / 15)).2 = lastChunk size := by
    have := h.pos
    rw [chunkAt_last h.totalChunks.symm, lastChunk]
    by_cases hsize : size ≤ 15
    · rw [if_pos (by omega), if_pos hsize]
    · rw [if_neg (by omega), if_neg hsize]
  rw [chunkLengths, h.totalChunks, List.range_succ, List.map_append, hfull, List.map_singleton,
    hlast]

/-- The flags of the chunks. -/
theorem flags_eq (h : Sendable size) :
    (List.range (totalChunks size)).map (fun i => (chunkAt size i).1)
      = if totalChunks size = 1 then [.firstlast]
        else .first :: List.replicate (totalChunks size - 2) .continue ++ [.last] := by
  have hcount := h.totalChunks
  by_cases hone : totalChunks size = 1
  · rw [if_pos hone, hone, List.range_one, List.map_singleton, chunkAt_last (by omega), if_pos rfl]
  · obtain ⟨m, hm⟩ : ∃ m, totalChunks size = m + 1 + 1 := ⟨totalChunks size - 2, by omega⟩
    have hmiddle : (List.range m).map (fun i => (chunkAt size (i + 1)).1)
        = List.replicate m .continue := by
      refine List.eq_replicate_iff.mpr ⟨by simp, fun flag hflag => ?_⟩
      obtain ⟨i, hi, rfl⟩ := List.mem_map.mp hflag
      rw [List.mem_range] at hi
      rw [chunkAt_of_lt (by omega), if_neg (Nat.succ_ne_zero i)]
    rw [if_neg hone, hm, List.range_succ, List.map_append, List.range_succ_eq_map, List.map_cons,
      List.map_map, List.map_singleton, chunkAt_of_lt (by omega), if_pos rfl,
      chunkAt_last (by omega), if_neg (Nat.succ_ne_zero m)]
    simp only [Function.comp_def, Nat.succ_eq_add_one, hmiddle]
    rfl

/-- The chunks cover the buffer, or all of it but the last fifteen bytes. -/
theorem chunkLengths_sum (h : Sendable size) :
    (chunkLengths size).sum = if 15 < size ∧ size % 15 = 0 then size - 15 else size := by
  have := h.pos
  rw [chunkLengths_eq h, List.sum_append, List.sum_replicate_nat, List.sum_singleton, lastChunk]
  split_ifs <;> omega

theorem chunkLengths_sum_le (h : Sendable size) : (chunkLengths size).sum ≤ size := by
  rw [chunkLengths_sum h]
  split_ifs <;> omega

theorem chunkLengths_le (h : Sendable size) : ∀ l ∈ chunkLengths size, l ≤ 15 := by
  intro l hl
  rw [chunkLengths_eq h, List.mem_append, List.mem_replicate, List.mem_singleton] at hl
  rcases hl with ⟨-, rfl⟩ | rfl
  · exact le_refl _
  · unfold lastChunk
    split_ifs <;> omega

/-! ## Handing packets over -/

/-- The packet for a chunk. -/
def packetAt (size i : Nat) (chunk : List UInt8) : Packet :=
  buildPacket .initZero chunk chunk.length (UInt8.ofNat i) (chunkAt size i).1

/-- The chunks from index `i` on, each with its packet. -/
def outgoing (size i : Nat) (chunks : List (List UInt8)) : List (List UInt8 × Packet) :=
  (chunks.zipIdx i).map fun (chunk, i) => (chunk, packetAt size i chunk)

section Transmit

variable (answer : List TxCall → List UInt8 → Nat → Bool)

/-- The call that hands a packet over, after the calls before it. -/
def handOver (calls : List TxCall) (item : List UInt8 × Packet) : TxCall :=
  let buffer := item.2.frame ++ List.replicate (packetSize - item.2.frame.length) 0
  ⟨item.1, buffer, item.2.frame.length, answer calls buffer item.2.frame.length⟩

/-- Hand packets over one by one, behind the calls before. -/
def transmit : List (List UInt8 × Packet) → List TxCall → List TxCall
  | [], calls => calls
  | item :: items, calls => transmit items (calls ++ [handOver answer calls item])

variable {answer}

/-- **What is handed over does not depend on the answers.** -/
theorem map_transmit {β : Type} {f : TxCall → β} {g : List UInt8 × Packet → β} :
    ∀ {items : List (List UInt8 × Packet)} (calls : List TxCall),
      (∀ item ∈ items, ∀ calls, f (handOver answer calls item) = g item) →
      (transmit answer items calls).map f = calls.map f ++ items.map g
  | [], calls, _ => by rw [transmit, List.map_nil, List.append_nil]
  | item :: items, calls, h => by
    rw [transmit, map_transmit _ fun item hitem => h item (List.mem_cons_of_mem _ hitem),
      List.map_append, List.map_singleton, h item List.mem_cons_self, List.append_assoc,
      List.singleton_append, List.map_cons]

variable (answer) in
/-- Every answer is the handler's answer to the call, after the calls before it. -/
def Answered (calls : List TxCall) : Prop :=
  ∀ j call, calls[j]? = some call → call.answer = answer (calls.take j) call.buffer call.size

theorem Answered.snoc {calls : List TxCall} (h : Answered answer calls) {call : TxCall}
    (hcall : call.answer = answer calls call.buffer call.size) :
    Answered answer (calls ++ [call]) := by
  intro j call' hj
  rcases Nat.lt_or_ge j calls.length with hlt | hge
  · rw [List.getElem?_append_left hlt] at hj
    rw [List.take_append_of_le_length hlt.le]
    exact h j call' hj
  · rw [List.getElem?_append_right hge, List.getElem?_singleton] at hj
    split_ifs at hj with hzero
    obtain rfl := Option.some.inj hj
    obtain rfl : j = calls.length := by omega
    rwa [List.take_left]

theorem answered_nil : Answered answer [] := by
  intro j call hj
  rw [List.getElem?_nil] at hj
  exact absurd hj (Option.some_ne_none call).symm

theorem Answered.transmit : ∀ {items : List (List UInt8 × Packet)} {calls : List TxCall},
    Answered answer calls → Answered answer (transmit answer items calls)
  | [], _, h => h
  | item :: items, calls, h => by
    rw [PacketSerial.transmit]
    exact Answered.transmit (h.snoc rfl)

end Transmit

theorem initial_transmit (answer : List TxCall → List UInt8 → Nat → Bool) :
    ∀ (items : List (List UInt8 × Packet)) (calls : List TxCall),
      calls <+: transmit answer items calls
  | [], _ => List.prefix_rfl
  | _ :: items, _ => (List.prefix_append _ _).trans (initial_transmit answer items _)

/-! ## The loop -/

variable {txHandler : TxHandler}

/-- What the handler answers; without one the answer is not asked for. -/
def TxHandler.answer (txHandler : TxHandler) (calls : List TxCall) (buffer : List UInt8)
    (size : Nat) : Bool :=
  (txHandler calls).any fun handler => handler buffer size

/-- A turn of the loop with a handler in place. -/
theorem sendLoop_some (n : Nat) {bufferOffset : List UInt8} (returnStatus : Bool)
    {calls : List TxCall} {handler : List UInt8 → Nat → Bool}
    (htx : txHandler calls = some handler) (hlen : (chunkAt size i).2 ≤ bufferOffset.length) :
    let chunk := bufferOffset.take (chunkAt size i).2
    let call := handOver txHandler.answer calls (chunk, packetAt size i chunk)
    sendLoop txHandler size (n + 1) i bufferOffset returnStatus calls
      = sendLoop txHandler size n (i + 1) (bufferOffset.drop (chunkAt size i).2)
          (returnStatus && call.answer) (calls ++ [call]) := by
  intro chunk call
  have hpacket : buildPacket .initZero bufferOffset (chunkAt size i).2 (UInt8.ofNat i)
      (chunkAt size i).1 = packetAt size i chunk := by
    rw [packetAt, List.length_take_of_le hlen, buildPacket_take]
  have hmarshal := (packetAt size i chunk).marshal_packet (List.replicate packetSize 0)
  rw [List.drop_replicate] at hmarshal
  rw [sendLoop]
  simp only [hpacket, hmarshal, htx, call, handOver, TxHandler.answer, Option.any_some]
  rfl

/-- A turn of the loop without a handler is the last one. -/
theorem sendLoop_none (n : Nat) (bufferOffset : List UInt8) (returnStatus : Bool)
    {calls : List TxCall} (htx : txHandler calls = none) :
    sendLoop txHandler size (n + 1) i bufferOffset returnStatus calls = (false, calls) := by
  rw [sendLoop]
  simp only [htx]

/-- The loop hands over packets until there is no handler. -/
theorem sendLoop_transmit (txHandler : TxHandler) (size : Nat) :
    ∀ (n i : Nat) (bufferOffset : List UInt8) (calls : List TxCall),
      ((List.range' i n).map fun i => (chunkAt size i).2).sum ≤ bufferOffset.length →
      let chunks := ((List.range' i n).map fun i => (chunkAt size i).2).splitLengths bufferOffset
      let calls' := transmit txHandler.answer (outgoing size i chunks) calls
      let sent := sendLoop txHandler size n i bufferOffset (calls.all TxCall.answer) calls
      sent.2 <+: calls' ∧ ((∀ calls, txHandler calls ≠ none) →
        sent = (calls'.all TxCall.answer, calls'))
  | 0, _, _, _, _ => ⟨List.prefix_rfl, fun _ => rfl⟩
  | n + 1, i, bufferOffset, calls, hsum => by
    rw [List.range'_succ, List.map_cons, List.sum_cons] at hsum
    rw [List.range'_succ, List.map_cons, List.splitLengths_cons]
    intro chunks calls'
    cases htx : txHandler calls with
    | none =>
      rw [sendLoop_none n bufferOffset _ htx]
      exact ⟨initial_transmit _ _ _, fun hstays => absurd htx (hstays calls)⟩
    | some handler =>
      rw [sendLoop_some n _ htx (by omega)]
      -- the status and the calls so far go on together
      have ih := sendLoop_transmit txHandler size n (i + 1)
        (bufferOffset.drop (chunkAt size i).2)
        (calls ++ [handOver txHandler.answer calls (bufferOffset.take (chunkAt size i).2,
          packetAt size i (bufferOffset.take (chunkAt size i).2))])
        (by rw [List.length_drop]; omega)
      rw [List.all_append, List.all_cons, List.all_nil, Bool.and_true] at ih
      exact ih

/-- The packets of a buffer, each with its chunk. -/
def packets (buffer : List UInt8) : List (List UInt8 × Packet) :=
  outgoing buffer.length 0 ((chunkLengths buffer.length).splitLengths buffer)

variable {buffer : List UInt8}

/-- **What `send` hands over** is what there is to hand over, up to where the handler is gone. -/
theorem send_initial (txHandler : TxHandler) (h : Sendable buffer.length) :
    (send txHandler buffer buffer.length).2 <+: transmit txHandler.answer (packets buffer) [] := by
  have hsum := chunkLengths_sum_le h
  rw [packets, chunkLengths, List.range_eq_range'] at *
  exact (sendLoop_transmit txHandler _ _ 0 buffer [] hsum).1

/-- **`send` with a handler that stays** hands over every packet, and answers whether all of them
were taken. -/
theorem send_eq (answer : List TxCall → List UInt8 → Nat → Bool) (h : Sendable buffer.length) :
    let calls := transmit answer (packets buffer) []
    send (fun calls => some (answer calls)) buffer buffer.length
      = (calls.all TxCall.answer, calls) := by
  have hsum := chunkLengths_sum_le h
  rw [packets, chunkLengths, List.range_eq_range'] at *
  exact (sendLoop_transmit (fun calls => some (answer calls)) _ _ 0 buffer [] hsum).2
    fun calls => Option.some_ne_none _

/-! ## The packets of a buffer -/

/-- A packet is made of its chunk, which is short. -/
theorem mem_packets (h : Sendable buffer.length) {item : List UInt8 × Packet}
    (hitem : item ∈ packets buffer) :
    item.1.length ≤ 15 ∧ ∃ i, item.2 = packetAt buffer.length i item.1 := by
  obtain ⟨⟨chunk, i⟩, hmem, rfl⟩ := List.mem_map.mp hitem
  have hchunk := List.fst_mem_of_mem_zipIdx hmem
  exact ⟨chunkLengths_le h _ (splitLengths_length_mem (chunkLengths_sum_le h) hchunk), i, rfl⟩

theorem packets_map_fst (buffer : List UInt8) :
    (packets buffer).map Prod.fst = (chunkLengths buffer.length).splitLengths buffer := by
  rw [packets, outgoing, List.map_map]
  exact List.zipIdx_map_fst 0 _

theorem packets_length (buffer : List UInt8) :
    (packets buffer).length = totalChunks buffer.length := by
  rw [← List.length_map (f := Prod.fst), packets_map_fst, List.length_splitLengths, chunkLengths,
    List.length_map, List.length_range]

/-- Something that the packets have by their index. -/
theorem packets_map_index {β : Type} {f : List UInt8 × Packet → β} {g : Nat → β}
    (h : ∀ chunk i, f (chunk, packetAt buffer.length i chunk) = g i) :
    (packets buffer).map f = (List.range (totalChunks buffer.length)).map g := by
  have hf : (f ∘ fun (chunk, i) => (chunk, packetAt buffer.length i chunk)) = g ∘ Prod.snd :=
    funext fun x => h x.1 x.2
  rw [packets, outgoing, List.map_map, hf, ← List.map_map, List.zipIdx_map_snd,
    List.length_splitLengths, chunkLengths, List.length_map, List.length_range,
    List.range_eq_range']

end EmbeddedTestbench.PacketSerial
