import EmbeddedTestbench.PacketSerial.Delivery

/-!
# The crc that a receiver checks (`PacketSerial.c`)

A receiver has the string of a packet and takes the crc over that. `build_packet` took it over the
whole chunk, so a chunk that ends in a terminator has a zero more in its crc.

Headlines:
* **`crcMatches_handOver`**: when the crc of a packet is that of its string.
* **`crcMatches_text_iff`**: a text sent with its terminator, and without.
-/

namespace EmbeddedTestbench.PacketSerial

open Nanopb ProtoBuff EmbeddedTestbench.Lib

/-- The crc of the packet of a call is `calculate_crc(packet.data, strlen(packet.data))`. -/
def CrcMatches (q : Packet) (call : TxCall) : Prop :=
  ∃ packet : Packet, receive q call = (true, [packet]) ∧
    packet.crc = calculateCrc packet.data.bytes packet.data.str.length

/-- The crc over the whole chunk is the one over its string. -/
def CrcOfString (chunk : List UInt8) : Prop :=
  (cString chunk ++ List.replicate (chunk.length - (cString chunk).length) 0).foldl crc8 0
    = (cString chunk).foldl crc8 0

variable {buffer : List UInt8}

/-- **The crc of a packet is that of its string** where the zeros behind the string keep it. -/
theorem crcMatches_handOver (q : Packet) (h : Sendable buffer.length)
    (answer : List TxCall → List UInt8 → Nat → Bool) (calls : List TxCall)
    {item : List UInt8 × Packet} (hitem : item ∈ packets buffer) :
    CrcMatches q (handOver answer calls item) ↔ CrcOfString item.1 := by
  obtain ⟨hlen, i, hpacket⟩ := mem_packets h hitem
  obtain ⟨packet, hreceive, hstr, -, hcrc, -⟩ := receive_packet q h answer calls hitem
  have hbuilt : packet.crc = _ :=
    hcrc.trans ((congrArg Packet.crc hpacket).trans (buildPacket_crc hlen _ _))
  have hchecked : calculateCrc packet.data.bytes packet.data.str.length
      = (cString item.1).foldl crc8 0 := by
    rw [calculateCrc_str, calculateCrc_self, hstr]
  rw [CrcMatches, exists_received_iff hreceive, hbuilt, hchecked]
  rfl

theorem crcOfString_of_notMem {chunk : List UInt8} (h : 0 ∉ chunk) : CrcOfString chunk := by
  rw [CrcOfString, cString_of_notMem h, Nat.sub_self, List.replicate_zero, List.append_nil]

/-- A chunk that ends in a terminator. -/
theorem crcOfString_terminated {text : List UInt8} (h : 0 ∉ text) :
    CrcOfString (text ++ [0]) ↔
      calculateCrc text text.length = 0x00 ∨ calculateCrc text text.length = 0xFD := by
  have hlen : (text ++ [(0 : UInt8)]).length - text.length = 1 := by simp
  rw [CrcOfString, cString_append_zero h, hlen, List.replicate_one, List.foldl_append,
    ← calculateCrc_self, ← crc8_zero_iff]
  rfl

/-- The chunks of a text that is sent with its terminator. -/
theorem forall_chunk_terminated {text : List UInt8} (h : 0 ∉ text)
    (hsend : Sendable (text ++ [0]).length) :
    (∀ chunk ∈ (chunkLengths (text ++ [0]).length).splitLengths (text ++ [0]), CrcOfString chunk) ↔
      (15 < (text ++ [0]).length ∧ (text ++ [0]).length % 15 = 0) ∨
      CrcOfString (text.drop (15 * (text.length / 15)) ++ [0]) := by
  have hlength : (text ++ [(0 : UInt8)]).length = text.length + 1 := by simp
  have hsum : (List.replicate (text.length / 15) 15).sum = 15 * (text.length / 15) := by
    rw [List.sum_replicate_nat, Nat.mul_comm]
  have hdrop : (text ++ [(0 : UInt8)]).drop (15 * (text.length / 15))
      = text.drop (15 * (text.length / 15)) ++ [0] :=
    List.drop_append_of_le_length (Nat.mul_div_le _ _)
  -- the full chunks are inside the text
  have hfull : ∀ chunk ∈ (List.replicate (text.length / 15) 15).splitLengths (text ++ [0]),
      CrcOfString chunk := by
    intro chunk hchunk
    refine crcOfString_of_notMem ?_
    refine (forall_splitLengths_notMem _ _ 0).mpr ?_ chunk hchunk
    rw [hsum, List.take_append_of_le_length (Nat.mul_div_le _ _)]
    exact fun hmem => h (List.mem_of_mem_take hmem)
  rw [chunkLengths_eq hsend, hlength, Nat.add_sub_cancel, splitLengths_append, hsum, hdrop,
    List.splitLengths_cons, List.splitLengths_nil]
  simp only [List.forall_mem_append, List.forall_mem_singleton, lastChunk]
  rw [and_iff_right hfull]
  by_cases hlast : 15 < text.length + 1 ∧ (text.length + 1) % 15 = 0
  · have hempty : CrcOfString [] := crcOfString_of_notMem List.not_mem_nil
    rw [if_neg (by omega), hlast.2, List.take_zero]
    exact iff_of_true hempty (Or.inl ⟨hlast.1, rfl⟩)
  · have hwhole : (text.drop (15 * (text.length / 15)) ++ [(0 : UInt8)]).length
        ≤ if text.length + 1 ≤ 15 then text.length + 1 else (text.length + 1) % 15 := by
      rw [List.length_append, List.length_drop, List.length_singleton]
      split_ifs <;> omega
    rw [List.take_of_length_le hwhole, or_iff_right hlast]

/-- All packets of a text that is sent with its terminator. -/
theorem forall_crcMatches_terminated (q : Packet) {text : List UInt8} (hzero : 0 ∉ text)
    (h : Sendable (text.length + 1)) (answer : List TxCall → List UInt8 → Nat → Bool) :
    let rest := text.drop (15 * (text.length / 15))
    (∀ call ∈ (send (fun calls => some (answer calls)) (text ++ [0]) (text.length + 1)).2,
      CrcMatches q call) ↔
    15 < text.length + 1 ∧ (text.length + 1) % 15 = 0 ∨
      calculateCrc rest rest.length = 0x00 ∨ calculateCrc rest rest.length = 0xFD := by
  intro rest
  have hlength : (text ++ [(0 : UInt8)]).length = text.length + 1 := by simp
  have hsend : Sendable (text ++ [(0 : UInt8)]).length := by rwa [hlength]
  have hrest : 0 ∉ rest := fun hmem => hzero (List.mem_of_mem_drop hmem)
  have hchunks := forall_chunk_terminated hzero hsend
  rw [← packets_map_fst, List.forall_mem_map, crcOfString_terminated hrest] at hchunks
  rw [← hlength, ← hchunks]
  exact forall_send_iff hsend answer fun item hitem calls =>
    crcMatches_handOver q hsend answer calls hitem

/-- **The crc of every packet is that of its string** for a text without its terminator. With the
terminator it is so when that is left out, or when the crc of the rest of the text stays the same
over a zero. -/
theorem crcMatches_text_iff (q : Packet) (text : List UInt8) (hzero : 0 ∉ text)
    (txHandler : TxHandler) (answer : List TxCall → List UInt8 → Nat → Bool) :
    (Sendable text.length →
      ∀ call ∈ (send txHandler text text.length).2, CrcMatches q call) ∧
    (Sendable (text.length + 1) →
      let rest := text.drop (15 * (text.length / 15))
      (∀ call ∈ (send (fun calls => some (answer calls)) (text ++ [0]) (text.length + 1)).2,
        CrcMatches q call) ↔
      15 < text.length + 1 ∧ (text.length + 1) % 15 = 0 ∨
        calculateCrc rest rest.length = 0x00 ∨ calculateCrc rest rest.length = 0xFD) := by
  constructor
  · intro h
    refine forall_send h fun item hitem calls => (crcMatches_handOver q h _ calls hitem).mpr ?_
    have hchunk : item.1 ∈ (chunkLengths text.length).splitLengths text := by
      rw [← packets_map_fst]
      exact List.mem_map_of_mem hitem
    have hnot := (forall_splitLengths_notMem (chunkLengths text.length) text 0).mpr fun hmem =>
      hzero (List.mem_of_mem_take hmem)
    exact crcOfString_of_notMem (hnot item.1 hchunk)
  · intro h
    exact forall_crcMatches_terminated q hzero h answer

/-- A full chunk, without the terminator and with it: the terminator goes alone. -/
theorem crcMatches_text_full_chunk :
    let text := List.replicate 15 0x41
    (∀ call ∈ (send (fun _ => some fun _ _ => true) text 15).2, CrcMatches .initZero call) ∧
      ∀ call ∈ (send (fun _ => some fun _ _ => true) (text ++ [0]) 16).2,
        CrcMatches .initZero call := by
  intro text
  obtain ⟨hplain, hterminated⟩ := crcMatches_text_iff .initZero text (by decide)
    (fun _ => some fun _ _ => true) fun _ _ _ => true
  exact ⟨hplain (by decide), (hterminated (by decide)).mpr (by decide)⟩

/-- The text of the tests, with its terminator: the crc of the last packet is another one. -/
theorem not_crcMatches_text :
    let text : List UInt8 :=
      [0x74, 0x65, 0x73, 0x74, 0x31, 0x74, 0x65, 0x73, 0x74, 0x32, 0x74, 0x65, 0x73, 0x74, 0x33,
       0x74, 0x65, 0x73, 0x74, 0x34, 0x74, 0x65, 0x73, 0x74, 0x35, 0x74, 0x65, 0x73, 0x74, 0x36,
       0x74, 0x65, 0x73, 0x74, 0x37, 0x74, 0x65, 0x73, 0x74]
    0 ∉ text ∧ ¬ ∀ call ∈ (send (fun _ => some fun _ _ => true) (text ++ [0]) 40).2,
      CrcMatches .initZero call := by
  intro text
  have hzero : 0 ∉ text := by decide
  refine ⟨hzero, fun hall => ?_⟩
  have hmatch := (forall_crcMatches_terminated .initZero hzero (by decide)
    fun _ _ _ => true).mp hall
  revert hmatch
  decide +kernel

end EmbeddedTestbench.PacketSerial
