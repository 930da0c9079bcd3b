import Mathlib.Data.List.Forall2
import EmbeddedTestbench.ProtoBuff.Marshal

/-!
# Packets on the wire

A packet goes out as `marshal(&packet, Packet_fields, buffer, Packet_size, true)`. Every packet
fits into `Packet_size` bytes with its length prefix, whatever its members hold, and frames can be
read off a stream one after the other.

Headlines:
* **`marshal_packet`**: marshalling a packet never fails.
* **`decodePackets_frames`**: a run of `decode_union` calls over frames in a row.
-/

namespace EmbeddedTestbench

open Nanopb IStream ProtoBuff EmbeddedTestbench.Lib

namespace Packet

/-- The bytes of a packet on the wire. -/
def frame (packet : Packet) : List UInt8 := marshalled packet true

theorem encode_length_le_one {v : Nat} (h : v < 128) : (Base128.encode v).length ≤ 1 :=
  Base128.encode_length_le 0 v h

theorem encoding_length_le (packet : Packet) : (encoding packet).length ≤ 30 := by
  have hkey : ∀ f ∈ fieldsAt .packet, (keyBytes f).length ≤ 1 := by
    intro f hf
    refine encode_length_le_one ?_
    revert f
    decide
  have hdata : (lengthPrefixed (cString packet.data.bytes)).length ≤ 17 := by
    have hle := cString_length_le packet.data.bytes
    rw [packet.data.length_eq] at hle
    have := encode_length_le_one (v := (cString packet.data.bytes).length) (by omega)
    rw [lengthPrefixed, List.length_append]
    omega
  have hbyte : ∀ b : UInt8, (Base128.encode b.toUInt64.toNat).length ≤ 2 := fun b =>
    Base128.encode_length_le 1 _ ((toNat_toUInt64_lt b).trans (by decide))
  have hseq := hbyte packet.sequenceNumber
  have hcrc := hbyte packet.crc
  have hflag := Base128.encode_length_le 4 _ ((toNat_toUInt64_lt_32 packet.flag).trans (by decide))
  have hwire : encoding packet =
      keyBytes ((fieldsAt .packet)[0]) ++ lengthPrefixed (cString packet.data.bytes) ++
      (keyBytes ((fieldsAt .packet)[1]) ++ Base128.encode packet.sequenceNumber.toUInt64.toNat ++
      (keyBytes ((fieldsAt .packet)[2]) ++ Base128.encode packet.crc.toUInt64.toNat ++
      (keyBytes ((fieldsAt .packet)[3]) ++ Base128.encode packet.flag.toUInt64.toNat ++ []))) := by
    simp [encoding, Message.fields, Message.slots, fieldsAt, wire, wireData, Slot.has]
  have h0 : (keyBytes (fieldsAt .packet)[0]).length ≤ 1 := hkey _ (List.getElem_mem _)
  have h1 : (keyBytes (fieldsAt .packet)[1]).length ≤ 1 := hkey _ (List.getElem_mem _)
  have h2 : (keyBytes (fieldsAt .packet)[2]).length ≤ 1 := hkey _ (List.getElem_mem _)
  have h3 : (keyBytes (fieldsAt .packet)[3]).length ≤ 1 := hkey _ (List.getElem_mem _)
  rw [hwire]
  simp only [List.length_append, List.length_nil]
  omega

/-- A frame fits into `Packet_size` bytes, although that does not count the prefix. -/
theorem frame_length_le (packet : Packet) : packet.frame.length ≤ packetSize := by
  have hlen := packet.encoding_length_le
  have := encode_length_le_one (v := (encoding packet).length) (by omega)
  have hframe : packet.frame = lengthPrefixed (encoding packet) := rfl
  have hsize : packetSize = 32 := rfl
  rw [hframe, lengthPrefixed, List.length_append, hsize]
  omega

/-- **Marshalling a packet never fails.** -/
theorem marshal_packet (packet : Packet) (buf : List UInt8) :
    marshal (Message.slots packet) .packet buf packetSize true
      = (packet.frame.length, packet.frame ++ buf.drop packet.frame.length) :=
  marshal_eq packet (by have := packet.encoding_length_le; omega) packet.frame_length_le

/-- `decode_union` on a frame. -/
theorem decodeUnion_packet (packet q : Packet) (hterm : packet.data.Terminated) :
    Reads (decodeUnion .packet (Message.slots q)) packet.frame
      (true, Message.slots (LeafMessage.received packet)) :=
  decodeUnion_frame packet q hterm (by have := packet.encoding_length_le; omega)

end Packet

/-! ## Packets in a row -/

/-- `n` calls of `decode_union(stream, Packet_fields, &q)`: each status with the packet in `q`. -/
def decodePackets : Nat → Packet → IStream → List (Bool × Packet) × IStream
  | 0, _, stream => ([], stream)
  | n + 1, q, stream =>
    match decodeUnion .packet (Message.slots q) stream with
    | ((status, slots), stream) =>
      match decodePackets n (Message.ofSlots slots) stream with
      | (rest, stream) => ((status, Message.ofSlots slots) :: rest, stream)

theorem marshalBytes_packet (packet : Packet) (buf : List UInt8) :
    marshalBytes (Message.slots packet) .packet buf packetSize true = packet.frame :=
  marshalBytes_eq packet (by have := packet.encoding_length_le; omega) packet.frame_length_le

/-- Frames in a row are read off one by one, and the stream stands behind the last. -/
theorem decodePackets_frames : ∀ (packets : List Packet) (q : Packet),
    (∀ packet ∈ packets, packet.data.Terminated) →
    Reads (decodePackets packets.length q) (packets.flatMap Packet.frame)
      (packets.map fun packet => (true, LeafMessage.received packet))
  | [], _, _ => fun _ _ _ => rfl
  | packet :: packets, q, hterm => by
    intro r t e
    have ih := decodePackets_frames packets (LeafMessage.received packet)
      (fun p hp => hterm p (List.mem_cons_of_mem packet hp)) r t e
    rw [List.flatMap_cons, List.append_assoc, List.length_cons, decodePackets,
      packet.decodeUnion_packet q (hterm packet List.mem_cons_self)]
    simp only [Message.ofSlots_slots, ih]
    rfl

/-- The outputs of `marshal` for packets in a row, each made in a buffer of its own, and `w`
behind them. -/
def packetStream (packets : List (Packet × CharArray packetSize)) (w : List UInt8) : List UInt8 :=
  (packets.flatMap fun p =>
    marshalBytes (Message.slots p.1) .packet p.2.bytes packetSize true) ++ w

/-- The same string, sequence number, crc and flag. -/
def Packet.Same (packet packet' : Packet) : Prop :=
  packet.data.str = packet'.data.str ∧ packet.sequenceNumber = packet'.sequenceNumber ∧
    packet.crc = packet'.crc ∧ packet.flag = packet'.flag

theorem Packet.received_same {packet : Packet} (hterm : packet.data.Terminated) :
    (LeafMessage.received packet).Same packet :=
  ⟨packet.data.padded_str hterm, rfl, rfl, rfl⟩

/-- **Marshalled packets in a row are self-delimiting**, whatever comes behind them. -/
theorem decodePackets_packetStream (packets : List (Packet × CharArray packetSize))
    (w : List UInt8) (q : Packet) (hterm : ∀ p ∈ packets, p.1.data.Terminated) :
    ∃ qs : List Packet,
      decodePackets packets.length q
          (pbIstreamFromBuffer (packetStream packets w) (packetStream packets w).length)
        = (qs.map fun q => (true, q), ⟨w, w.length, none⟩) ∧
      List.Forall₂ (fun q p => q.Same p.1) qs packets := by
  have hstream : packetStream packets w = (packets.map Prod.fst).flatMap Packet.frame ++ w := by
    simp only [packetStream, marshalBytes_packet, List.flatMap_map]
  refine ⟨(packets.map Prod.fst).map LeafMessage.received, ?_, ?_⟩
  · have hread := decodePackets_frames (packets.map Prod.fst) q
      (fun p hp => by
        obtain ⟨p', hp', rfl⟩ := List.mem_map.mp hp
        exact hterm p' hp') w [] none
    rw [List.length_map] at hread
    rw [pbIstreamFromBuffer_self, hstream, hread, List.map_map]
    simp [window, Function.comp_def]
  · rw [List.map_map, List.forall₂_map_left_iff, List.forall₂_same]
    intro p hp
    exact Packet.received_same (hterm p hp)

/-- Two packets and a tail; the buffer of the second call still holds the first frame's bytes. -/
theorem decodePackets_packetStream_two :
    let packets : List (Packet × CharArray packetSize) :=
      [(⟨.ofBytes 16 [104, 105], 255, 7, 0⟩, .zero packetSize),
        (⟨.ofBytes 16 [33], 0, 9, 2⟩, .ofBytes packetSize [10, 10, 2, 104, 105])]
    ∃ qs : List Packet,
      decodePackets 2 .initZero (pbIstreamFromBuffer (packetStream packets [1, 2, 3])
          (packetStream packets [1, 2, 3]).length)
        = (qs.map fun q => (true, q), ⟨[1, 2, 3], 3, none⟩) ∧
      List.Forall₂ (fun q p => q.Same p.1) qs packets := by
  intro packets
  exact decodePackets_packetStream packets [1, 2, 3] .initZero (by decide)

end EmbeddedTestbench
