import EmbeddedTestbench.PacketSerial.Send
import EmbeddedTestbench.ProtoBuff.Unmarshal

/-!
# What a receiver gets (`PacketSerial.c`)

A receiver reads every frame with `explicit_unmarshal` in delimited mode, and the callback decodes
with `ProtoBuff.decode` over `Packet_fields`.

Headlines:
* **`receive_handOver`**: every frame is decoded to the packet that was built.
* **`lossless_iff`**: the strings of the packets make up the buffer, unless the last chunk is full.
* **`transparent_iff`**: a packet carries its chunk when the chunk has no zero in it.
* **`send_frames`**: the calls, the flags and the result of `send`.
* **`sequenceNumber_eq_index`**: the sequence numbers are the indices modulo 256.
-/

namespace EmbeddedTestbench.PacketSerial

open Nanopb IStream ProtoBuff EmbeddedTestbench.Lib

/-! ## Definitions -/

/-- The callback of a receiver: `ProtoBuff.decode(stream, Packet_fields, &packet)`, where anything
may be in `packet` before. -/
def decodePacket (packet : Packet) (stream : IStream) : (Bool × List Packet) × IStream :=
  match pbDecode fieldsAt (fieldsAt .packet) (Message.slots packet) stream with
  | ((status, slots), stream) => ((status, [Message.ofSlots slots]), stream)

/-- A receiver on the bytes of a call. -/
def receive (packet : Packet) (call : TxCall) : Bool × List Packet :=
  explicitUnmarshal call.buffer call.size true (decodePacket packet)

/-- The bytes of all strings that are received. -/
def receivedData (packet : Packet) (calls : List TxCall) : List UInt8 :=
  calls.flatMap fun call => (receive packet call).2.flatMap fun packet => packet.data.str

/-! ## Frames -/

variable {buffer : List UInt8}

/-- `decode` on the payload of a frame. -/
theorem decodePacket_encoding (q packet : Packet) (hterm : packet.data.Terminated)
    (t : List UInt8) (e : Option String) :
    (decodePacket q (window (encoding packet) t e)).1 = (true, [LeafMessage.received packet]) := by
  have hdecode : pbDecode fieldsAt (fieldsAt .packet) (Message.slots q)
      (window (encoding packet) t e) = _ := pbDecode_encoding packet q hterm t e
  simp only [decodePacket, hdecode, Message.ofSlots_slots]

/-- **Every frame is decoded to the packet that was built.** -/
theorem receive_handOver (q : Packet) (answer : List TxCall → List UInt8 → Nat → Bool)
    (calls : List TxCall) {item : List UInt8 × Packet} (hterm : item.2.data.Terminated) :
    receive q (handOver answer calls item) = (true, [LeafMessage.received item.2]) := by
  have hlen : (encoding item.2).length < 2 ^ 32 := by
    have := item.2.encoding_length_le
    omega
  have hframe : item.2.frame = lengthPrefixed (encoding item.2) := rfl
  have hstream := makeSubstream_lengthPrefixed hlen []
    (List.replicate (packetSize - item.2.frame.length) 0) none
  rw [List.append_nil, ← hframe, ← pbIstreamFromBuffer_append] at hstream
  have hdecodeStream : decodeStream (handOver answer calls item).buffer
      (handOver answer calls item).size true = some (window (encoding item.2) _ none) :=
    congrArg Prod.fst hstream
  rw [receive, explicitUnmarshal, unmarshalWith_eq, hdecodeStream]
  exact decodePacket_encoding q item.2 hterm _ none

/-- A packet that `send` builds has the string of its chunk. -/
theorem packets_str (h : Sendable buffer.length) {item : List UInt8 × Packet}
    (hitem : item ∈ packets buffer) :
    item.2.data.Terminated ∧ item.2.data.str = cString item.1 := by
  obtain ⟨hlen, i, hpacket⟩ := mem_packets h hitem
  rw [hpacket]
  exact ⟨buildPacket_terminated hlen _ _, buildPacket_str hlen _ _⟩

/-- What is received of a packet. -/
theorem receive_packet (q : Packet) (h : Sendable buffer.length)
    (answer : List TxCall → List UInt8 → Nat → Bool) (calls : List TxCall)
    {item : List UInt8 × Packet} (hitem : item ∈ packets buffer) :
    ∃ packet : Packet, receive q (handOver answer calls item) = (true, [packet]) ∧
      packet.data.str = cString item.1 ∧ packet.sequenceNumber = item.2.sequenceNumber ∧
      packet.crc = item.2.crc ∧ packet.flag = item.2.flag := by
  obtain ⟨hterm, hstr⟩ := packets_str h hitem
  exact ⟨_, receive_handOver q answer calls hterm, (item.2.data.padded_str hterm).trans hstr, rfl,
    rfl, rfl⟩

/-- A property of the packet that is received. -/
theorem exists_received_iff {q packet : Packet} {call : TxCall} {p : Packet → Prop}
    (h : receive q call = (true, [packet])) :
    (∃ packet', receive q call = (true, [packet']) ∧ p packet') ↔ p packet := by
  constructor
  · rintro ⟨packet', h', hp⟩
    rw [h, Prod.mk.injEq, List.singleton_inj] at h'
    obtain ⟨-, rfl⟩ := h'
    exact hp
  · intro hp
    exact ⟨packet, h, hp⟩

/-! ## All packets -/

section All

variable (h : Sendable buffer.length) (answer : List TxCall → List UInt8 → Nat → Bool)
include h

/-- What does not depend on the answers is the same for all handlers. -/
theorem map_send {β : Type} {f : TxCall → β} {g : List UInt8 × Packet → β}
    (hfg : ∀ item ∈ packets buffer, ∀ calls, f (handOver answer calls item) = g item) :
    (send (fun calls => some (answer calls)) buffer buffer.length).2.map f
      = (packets buffer).map g := by
  rw [send_eq answer h, map_transmit [] hfg, List.map_nil, List.nil_append]

/-- A property that does not depend on the answers, of all calls of a `send`. -/
theorem forall_send_iff {p : TxCall → Prop} {p' : List UInt8 × Packet → Prop}
    (hp : ∀ item ∈ packets buffer, ∀ calls, p (handOver answer calls item) ↔ p' item) :
    (∀ call ∈ (send (fun calls => some (answer calls)) buffer buffer.length).2, p call) ↔
      ∀ item ∈ packets buffer, p' item := by
  have hmap := map_send h answer fun item hitem calls => propext (hp item hitem calls)
  calc (∀ call ∈ (send (fun calls => some (answer calls)) buffer buffer.length).2, p call)
      ↔ ∀ q ∈ (send (fun calls => some (answer calls)) buffer buffer.length).2.map p, q :=
        (List.forall_mem_map (P := fun q => q)).symm
    _ ↔ ∀ q ∈ (packets buffer).map p', q := by rw [hmap]
    _ ↔ ∀ item ∈ packets buffer, p' item := List.forall_mem_map (P := fun q => q)

omit answer in
/-- A `send` that may end early makes some of the calls, from the first on. -/
theorem map_send_initial {txHandler : TxHandler} {β : Type} {f : TxCall → β}
    {g : List UInt8 × Packet → β}
    (hfg : ∀ item ∈ packets buffer, ∀ calls, f (handOver txHandler.answer calls item) = g item) :
    (send txHandler buffer buffer.length).2.map f <+: (packets buffer).map g := by
  have hprefix := (send_initial txHandler h).map f
  rwa [map_transmit [] hfg, List.map_nil, List.nil_append] at hprefix

omit answer in
/-- A property of the calls of a `send` that may end early. -/
theorem forall_send {txHandler : TxHandler} {p : TxCall → Prop}
    (hp : ∀ item ∈ packets buffer, ∀ calls, p (handOver txHandler.answer calls item)) :
    ∀ call ∈ (send txHandler buffer buffer.length).2, p call := by
  intro call hcall
  have hall := (forall_send_iff h txHandler.answer fun item hitem calls =>
    iff_true_intro (hp item hitem calls)).mpr fun _ _ => trivial
  rw [send_eq txHandler.answer h] at hall
  exact hall call ((send_initial txHandler h).subset hcall)

end All

/-! ## The strings -/

/-- The packet of a call carries its chunk. -/
def Transparent (q : Packet) (call : TxCall) : Prop :=
  ∃ packet : Packet, receive q call = (true, [packet]) ∧ packet.data.str = call.chunk

theorem transparent_handOver (q : Packet) (h : Sendable buffer.length)
    (answer : List TxCall → List UInt8 → Nat → Bool) (calls : List TxCall)
    {item : List UInt8 × Packet} (hitem : item ∈ packets buffer) :
    Transparent q (handOver answer calls item) ↔ 0 ∉ item.1 := by
  obtain ⟨packet, hreceive, hstr, -⟩ := receive_packet q h answer calls hitem
  rw [Transparent, exists_received_iff hreceive, hstr]
  exact cString_eq_self_iff

/-- All packets carry their chunks when what the chunks cover has no zero in it. -/
theorem forall_transparent_iff (q : Packet) (h : Sendable buffer.length)
    (answer : List TxCall → List UInt8 → Nat → Bool) :
    (∀ call ∈ (send (fun calls => some (answer calls)) buffer buffer.length).2,
      Transparent q call) ↔ 0 ∉ buffer.take (chunkLengths buffer.length).sum := by
  rw [forall_send_iff h answer fun item hitem calls => transparent_handOver q h answer calls hitem,
    ← forall_splitLengths_notMem, ← packets_map_fst, List.forall_mem_map]

/-- **A packet carries its chunk exactly when there is no zero in the chunk**; all of them do when
there is none in the buffer, where the last chunk may be left out. -/
theorem transparent_iff (q : Packet) (buffer : List UInt8) (h : Sendable buffer.length)
    (txHandler : TxHandler) (answer : List TxCall → List UInt8 → Nat → Bool) :
    (∀ call ∈ (send txHandler buffer buffer.length).2, Transparent q call ↔ 0 ∉ call.chunk) ∧
    ((∀ call ∈ (send (fun calls => some (answer calls)) buffer buffer.length).2,
        Transparent q call) ↔
      0 ∉ buffer.take (if 15 < buffer.length ∧ buffer.length % 15 = 0 then buffer.length - 15
        else buffer.length)) := by
  constructor
  · exact forall_send h fun item hitem calls => transparent_handOver q h _ calls hitem
  · rw [← chunkLengths_sum h]
    exact forall_transparent_iff q h answer

/-- A short text, without its terminator and with it. -/
theorem transparent_text :
    (∀ call ∈ (send (fun _ => some fun _ _ => false) [0x74, 0x65, 0x73, 0x74] 4).2,
      Transparent .initZero call) ∧
    ¬ ∀ call ∈ (send (fun _ => some fun _ _ => false) [0x74, 0x65, 0x73, 0x74, 0x00] 5).2,
      Transparent .initZero call := by
  obtain ⟨-, hplain⟩ := transparent_iff .initZero [0x74, 0x65, 0x73, 0x74]
    (by decide) (fun _ => none) fun _ _ _ => false
  obtain ⟨-, hterminated⟩ := transparent_iff .initZero [0x74, 0x65, 0x73, 0x74, 0x00]
    (by decide) (fun _ => none) fun _ _ _ => false
  exact ⟨hplain.mpr (by decide), fun hall => absurd (hterminated.mp hall) (by decide)⟩

/-- A marshalled union message, of an empty report: its last byte is a zero and does not arrive. -/
theorem not_transparent_report :
    let m : UnionMessage :=
      ⟨false, ⟨.zero 64, .zero 64, 0⟩, true, ⟨.zero 256⟩, false, ⟨.zero 64⟩⟩
    let buffer := [0x04, 0x12, 0x02, 0x0A, 0x00]
    marshalBytes (Message.slots m) .unionMessage (List.replicate 100 0) 100 true = buffer ∧
      ¬ ∀ call ∈ (send (fun _ => some fun _ _ => true) buffer 5).2, Transparent .initZero call := by
  intro m buffer
  refine ⟨by decide +kernel, fun hall => ?_⟩
  have hbuffer : Sendable buffer.length := (by decide)
  have hcovered := (forall_transparent_iff .initZero hbuffer fun _ _ _ => true).mp hall
  rw [chunkLengths_sum hbuffer] at hcovered
  exact hcovered (by decide)

/-- The bytes that arrive. -/
theorem receivedData_send (q : Packet) (h : Sendable buffer.length)
    (answer : List TxCall → List UInt8 → Nat → Bool) :
    receivedData q (send (fun calls => some (answer calls)) buffer buffer.length).2
      = ((chunkLengths buffer.length).splitLengths buffer).flatMap cString := by
  have hmap := map_send h answer
    (f := fun call => (receive q call).2.flatMap fun packet => packet.data.str)
    (g := fun item => cString item.1) fun item hitem calls => by
      obtain ⟨packet, hreceive, hstr, -⟩ := receive_packet q h answer calls hitem
      rw [hreceive, List.flatMap_singleton, hstr]
  rw [receivedData, List.flatMap_def, hmap, ← packets_map_fst, List.flatMap_def, List.map_map]
  rfl

/-- Without a zero in the buffer, what the chunks cover arrives. -/
theorem receivedData_of_notMem (q : Packet) (h : Sendable buffer.length) (hzero : 0 ∉ buffer)
    (answer : List TxCall → List UInt8 → Nat → Bool) :
    receivedData q (send (fun calls => some (answer calls)) buffer buffer.length).2
      = buffer.take (chunkLengths buffer.length).sum := by
  have hchunks := (forall_splitLengths_notMem (chunkLengths buffer.length) buffer 0).mpr
    fun hmem => hzero (List.mem_of_mem_take hmem)
  have hself : ((chunkLengths buffer.length).splitLengths buffer).map cString
      = ((chunkLengths buffer.length).splitLengths buffer).map id :=
    List.map_congr_left fun chunk hchunk => cString_of_notMem (hchunks chunk hchunk)
  rw [receivedData_send q h, List.flatMap_def, hself, List.map_id, flatten_splitLengths_take]

/-- To a handler that takes everything, the strings of the packets make up the buffer. -/
def Lossless (q : Packet) (buffer : List UInt8) : Prop :=
  let calls := (send (fun _ => some fun _ _ => true) buffer buffer.length).2
  (∀ call ∈ calls, (receive q call).1 = true) ∧ receivedData q calls = buffer

theorem lossless_iff_take (q : Packet) (h : Sendable buffer.length) (hzero : 0 ∉ buffer) :
    Lossless q buffer ↔ buffer.take (chunkLengths buffer.length).sum = buffer := by
  have hdata := receivedData_of_notMem q h hzero fun _ _ _ => true
  have htrue : ∀ call ∈ (send (fun _ => some fun _ _ => true) buffer buffer.length).2,
      (receive q call).1 = true := forall_send h fun item hitem calls => by
    obtain ⟨packet, hreceive, -⟩ := receive_packet q h _ calls hitem
    rw [hreceive]
  rw [Lossless, hdata]
  exact and_iff_right htrue

/-- **The strings of the packets make up the buffer, unless the last chunk is full** and not the
only one: its length is then taken for zero. -/
theorem lossless_iff (q : Packet) (buffer : List UInt8) (h : Sendable buffer.length)
    (hzero : 0 ∉ buffer) :
    Lossless q buffer ↔ buffer.length ≤ 15 ∨ buffer.length % 15 ≠ 0 := by
  rw [lossless_iff_take q h hzero, chunkLengths_sum h, List.take_eq_self_iff]
  split_ifs <;> omega

/-- One byte more than two full chunks. -/
theorem lossless_text : Lossless .initZero (List.replicate 31 0x41) :=
  (lossless_iff .initZero (List.replicate 31 0x41) (by decide) (by decide)).mpr
    (by decide)

/-- Two full chunks: the second one does not arrive. -/
theorem not_lossless_full_chunk :
    let buffer := List.replicate 30 0x41
    Sendable buffer.length ∧ 0 ∉ buffer ∧ ¬ Lossless .initZero buffer := by
  intro buffer
  have h : Sendable buffer.length := (by decide)
  have hzero : 0 ∉ buffer := by decide
  refine ⟨h, hzero, ?_⟩
  rw [lossless_iff_take .initZero h hzero, chunkLengths_sum h]
  decide

/-! ## Calls, flags and result -/

/-- **The calls that `send` makes**, to a handler that stays: one for each chunk, with the flags in
order, whatever the answers; and `send` answers whether all of them were `true`. -/
theorem send_frames (q : Packet) (buffer : List UInt8) (h : Sendable buffer.length)
    (answer answer' : List TxCall → List UInt8 → Nat → Bool) :
    let k := (buffer.length + 14) / 15
    let sent := send (fun calls => some (answer calls)) buffer buffer.length
    let sent' := send (fun calls => some (answer' calls)) buffer buffer.length
    sent.2.length = k ∧
    (∃ ps : List Packet, sent.2.map (receive q) = ps.map (fun packet => (true, [packet])) ∧
      ps.map Packet.flag = (if k = 1 then [PacketFlag.firstlast]
        else .first :: List.replicate (k - 2) .continue ++ [.last]).map PacketFlag.code) ∧
    sent.2.map (fun call => (call.buffer, call.size))
      = sent'.2.map (fun call => (call.buffer, call.size)) ∧
    Answered answer sent.2 ∧
    (sent.1 = true ↔ ∀ call ∈ sent.2, call.answer = true) := by
  intro k sent sent'
  have hk : totalChunks buffer.length = k := by
    have := h.pos
    rw [h.totalChunks]
    omega
  have hreceive : sent.2.map (receive q)
      = (packets buffer).map fun item => (true, [LeafMessage.received item.2]) :=
    map_send h answer fun item hitem calls =>
      receive_handOver q answer calls (packets_str h hitem).1
  have hflags : (packets buffer).map (fun item => item.2.flag)
      = ((List.range (totalChunks buffer.length)).map fun i =>
          (chunkAt buffer.length i).1).map PacketFlag.code := by
    rw [List.map_map]
    exact packets_map_index fun _ _ => rfl
  have hframes : ∀ answer : List TxCall → List UInt8 → Nat → Bool,
      (send (fun calls => some (answer calls)) buffer buffer.length).2.map
          (fun call => (call.buffer, call.size))
        = (packets buffer).map fun item =>
          (item.2.frame ++ List.replicate (packetSize - item.2.frame.length) 0,
            item.2.frame.length) := fun answer => map_send h answer fun _ _ _ => rfl
  have hsent : sent = _ := send_eq answer h
  refine ⟨?_, ⟨(packets buffer).map fun item => LeafMessage.received item.2, ?_, ?_⟩, ?_, ?_, ?_⟩
  · rw [← hk, ← packets_length, ← List.length_map (f := receive q), hreceive, List.length_map]
  · rw [hreceive, List.map_map]
    rfl
  · rw [List.map_map, ← hk, ← flags_eq h]
    exact hflags
  · rw [hframes, hframes]
  · rw [hsent]
    exact answered_nil.transmit
  · rw [hsent, List.all_eq_true]

/-- Thirty-one bytes to a handler that refuses the second frame. -/
theorem send_frames_refused :
    let sent := send (fun calls => some fun _ _ => calls.length != 1) (List.replicate 31 0x41) 31
    sent.2.length = 3 ∧
      ∃ ps : List Packet, sent.2.map (receive .initZero) = ps.map (fun packet => (true, [packet])) ∧
        ps.map Packet.flag = [0, 1, 2] := by
  intro sent
  obtain ⟨hlength, hflags, -⟩ := send_frames .initZero (List.replicate 31 0x41)
    (by decide) (fun calls _ _ => calls.length != 1) fun _ _ _ => true
  exact ⟨hlength, hflags⟩

/-! ## Sequence numbers -/

/-- The sequence numbers that are received of a call. -/
def sequenceNumbers (q : Packet) (call : TxCall) : List UInt8 :=
  (receive q call).2.map Packet.sequenceNumber

theorem sequenceNumbers_handOver (q : Packet) (h : Sendable buffer.length)
    (answer : List TxCall → List UInt8 → Nat → Bool) (calls : List TxCall)
    {item : List UInt8 × Packet} (hitem : item ∈ packets buffer) :
    sequenceNumbers q (handOver answer calls item) = [item.2.sequenceNumber] := by
  obtain ⟨packet, hreceive, -, hsequence, -⟩ := receive_packet q h answer calls hitem
  rw [sequenceNumbers, hreceive, List.map_singleton, hsequence]

theorem packets_sequenceNumber (buffer : List UInt8) :
    (packets buffer).map (fun item => [item.2.sequenceNumber])
      = (List.range (totalChunks buffer.length)).map fun i => [UInt8.ofNat i] :=
  packets_map_index fun _ _ => rfl

/-- Up to 256 indices have different sequence numbers. -/
theorem nodup_sequenceNumber {n : Nat} (h : n ≤ 256) :
    ((List.range n).map UInt8.ofNat).Nodup := by
  refine List.Nodup.map_on ?_ List.nodup_range
  intro i hi j hj heq
  rw [List.mem_range] at hi hj
  have hval := congrArg UInt8.toNat heq
  rw [UInt8.toNat_ofNat', UInt8.toNat_ofNat'] at hval
  omega

/-- The element at `i` of a list that starts off a list made of indices. -/
theorem eq_of_append_eq_map_range {β : Type} {l rest : List β} {n i : Nat} {g : Nat → β} {b : β}
    (h : l ++ rest = (List.range n).map g) (hi : l[i]? = some b) : b = g i := by
  obtain ⟨hlt, -⟩ := List.getElem?_eq_some_iff.mp hi
  rw [← List.getElem?_append_left hlt, h, List.getElem?_map, Option.map_eq_some_iff] at hi
  obtain ⟨j, hj, rfl⟩ := hi
  obtain ⟨_, hj⟩ := List.getElem?_eq_some_iff.mp hj
  rw [← hj, List.getElem_range]

/-- **The sequence numbers are the indices modulo 256**, so those of up to 256 packets are
different. -/
theorem sequenceNumber_eq_index (q : Packet) (buffer : List UInt8) (h : Sendable buffer.length)
    (txHandler : TxHandler) :
    let calls := (send txHandler buffer buffer.length).2
    (∀ i call, calls[i]? = some call → ∃ packet : Packet, receive q call = (true, [packet]) ∧
      packet.sequenceNumber.toNat = i % 256) ∧
    ((buffer.length + 14) / 15 ≤ 256 → (calls.flatMap (sequenceNumbers q)).Nodup) := by
  intro calls
  obtain ⟨rest, hrest⟩ := map_send_initial h fun item hitem calls =>
    sequenceNumbers_handOver q h txHandler.answer calls hitem
  rw [packets_sequenceNumber] at hrest
  constructor
  · intro i call hcall
    obtain ⟨packet, hreceive⟩ := forall_send h
      (p := fun call => ∃ packet, receive q call = (true, [packet])) (fun item hitem calls =>
        ⟨_, receive_handOver q _ calls (packets_str h hitem).1⟩) call (List.mem_of_getElem? hcall)
    have hentry : (calls.map (sequenceNumbers q))[i]? = some (sequenceNumbers q call) := by
      rw [List.getElem?_map, hcall]
      rfl
    have hnumber := eq_of_append_eq_map_range hrest hentry
    rw [sequenceNumbers, hreceive, List.map_singleton, List.singleton_inj] at hnumber
    refine ⟨packet, hreceive, ?_⟩
    rw [hnumber, UInt8.toNat_ofNat']
  · intro hcount
    have hpos := h.pos
    have hnodup := nodup_sequenceNumber (n := totalChunks buffer.length)
      (by rw [h.totalChunks]; omega)
    rw [List.map_eq_flatMap, List.flatMap_def, ← hrest, List.flatten_append] at hnodup
    rw [List.flatMap_def]
    exact hnodup.of_append_left

/-- Two packets to a handler that is gone after the first. -/
theorem sequenceNumber_eq_index_two :
    let calls := (send (fun calls => if calls.length < 1 then some fun _ _ => true else none)
      (List.replicate 20 0x41) 20).2
    (calls.flatMap (sequenceNumbers .initZero)).Nodup :=
  (sequenceNumber_eq_index .initZero (List.replicate 20 0x41) (by decide)
    fun calls => if calls.length < 1 then some fun _ _ => true else none).2 (by decide)

/-- The packet with index 256 has the sequence number of the first one. -/
theorem sequenceNumber_repeats :
    let calls := (send (fun _ => some fun _ _ => true) (List.replicate 3841 0x41) 3841).2
    ¬ (calls.flatMap (sequenceNumbers .initZero)).Nodup := by
  intro calls hnodup
  have h : Sendable (List.replicate 3841 (0x41 : UInt8)).length := by
    rw [List.length_replicate]
    exact (by decide)
  have hnumbers := map_send h (fun _ _ _ => true) fun item hitem calls =>
    sequenceNumbers_handOver .initZero h _ calls hitem
  rw [packets_sequenceNumber, h.totalChunks, List.length_replicate] at hnumbers
  have hcalls : calls.map (sequenceNumbers .initZero) = _ := hnumbers
  rw [List.flatMap_def, hcalls, ← List.flatMap_def, ← List.map_eq_flatMap] at hnodup
  have hsame := List.inj_on_of_nodup_map hnodup (List.mem_range.mpr (by decide : 0 < 257))
    (List.mem_range.mpr (by decide : 256 < 257)) rfl
  exact absurd hsame (by decide)

end EmbeddedTestbench.PacketSerial
