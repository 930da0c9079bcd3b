import Mathlib.Logic.Function.Iterate
import EmbeddedTestbench.Hid

/-!
# `calculate_crc` and `build_packet` (`PacketSerial.c`, `Crc8.c`)

`build_packet` copies with `strncpy`, which stops at the first zero of the chunk, and then takes
the crc over the whole length of the chunk.

Headlines:
* **`buildPacket_str`**: the string of a packet is the chunk up to its first zero.
* **`buildPacket_crc`**: its crc is that of the chunk up to its first zero, and zeros behind.
* `crc8_zero_iff`: which crcs stay the same over a zero.
-/

namespace EmbeddedTestbench.PacketSerial

open Nanopb

/-! ## Definitions -/

/-- A turn of the loop of `Crc8`, the variant for 8 bit CPUs. -/
def crc8Step (data : UInt8) : UInt8 :=
  if data &&& 0x80 ≠ 0 then (data <<< 1) ^^^ 0x07 else data <<< 1

/-- `Crc8`. -/
def crc8 (inCrc inData : UInt8) : UInt8 := crc8Step^[8] (inCrc ^^^ inData)

/-- `calculate_crc`, for a `size` inside the buffer. -/
def calculateCrc (buffer : List UInt8) (size : Nat) : UInt8 := (buffer.take size).foldl crc8 0

/-- `strncpy(dest, src, n)`: what is in `dest` afterwards. -/
def strncpy (dest src : List UInt8) (n : Nat) : List UInt8 :=
  cString (src.take n) ++ List.replicate (n - (cString (src.take n)).length) 0 ++ dest.drop n

/-- `build_packet`, for a `size` inside `data`. -/
def buildPacket (packet : Packet) (buffer : List UInt8) (size : Nat) (sequenceNumber : UInt8)
    (flag : PacketFlag) : Packet :=
  let data := CharArray.ofBytes 16 (strncpy packet.data.bytes buffer size)
  { data, sequenceNumber, crc := calculateCrc data.bytes size, flag := flag.code }

/-! ## The crc -/

theorem calculateCrc_self (bytes : List UInt8) :
    calculateCrc bytes bytes.length = bytes.foldl crc8 0 := by
  rw [calculateCrc, List.take_length]

/-- `crc8` over a zero keeps two crcs only. -/
theorem crc8_zero_iff (crc : UInt8) : crc8 crc 0 = crc ↔ crc = 0x00 ∨ crc = 0xFD := by
  revert crc
  exact forall_byte (by decide +kernel)

/-- The crc of the string in an array. -/
theorem calculateCrc_str {n : Nat} (a : CharArray n) :
    calculateCrc a.bytes a.str.length = calculateCrc a.str a.str.length := by
  have hprefix : a.bytes.take a.str.length = a.str :=
    (List.prefix_iff_eq_take.mp (List.takeWhile_prefix _)).symm
  rw [calculateCrc, hprefix, calculateCrc_self]

/-! ## The packet -/

/-- A copy of no more bytes than the array has stays inside it. -/
theorem strncpy_length {dest : List UInt8} (src : List UInt8) {n : Nat} (h : n ≤ dest.length) :
    (strncpy dest src n).length = dest.length := by
  have hle := cString_length_le (src.take n)
  have htake := List.length_take_le n src
  simp only [strncpy, List.length_append, List.length_replicate, List.length_drop]
  omega

/-- Only the chunk is read. -/
theorem buildPacket_take (packet : Packet) (buffer : List UInt8) (size : Nat)
    (sequenceNumber : UInt8) (flag : PacketFlag) :
    buildPacket packet (buffer.take size) size sequenceNumber flag
      = buildPacket packet buffer size sequenceNumber flag := by
  simp only [buildPacket, strncpy, List.take_take, Nat.min_self]

section Chunk

variable {chunk : List UInt8} (h : chunk.length ≤ 15) (sequenceNumber : UInt8) (flag : PacketFlag)
include h

/-- A chunk in an empty packet: up to its first zero, and zeros behind. -/
theorem buildPacket_data :
    (buildPacket .initZero chunk chunk.length sequenceNumber flag).data.bytes
      = cString chunk ++ List.replicate (16 - (cString chunk).length) 0 := by
  have hle := cString_length_le chunk
  have hcopy : strncpy (List.replicate 16 0) chunk chunk.length
      = cString chunk ++ List.replicate (16 - (cString chunk).length) 0 := by
    rw [strncpy, List.take_length, List.drop_replicate, List.append_assoc,
      List.replicate_append_replicate]
    congr 2
    omega
  have hlen : (cString chunk ++ List.replicate (16 - (cString chunk).length) (0 : UInt8)).length
      = 16 := by
    rw [List.length_append, List.length_replicate]
    omega
  calc (buildPacket .initZero chunk chunk.length sequenceNumber flag).data.bytes
      = (strncpy (List.replicate 16 0) chunk chunk.length ++ List.replicate 16 0).take 16 := rfl
    _ = cString chunk ++ List.replicate (16 - (cString chunk).length) 0 := by
      rw [hcopy, List.take_left' hlen]

theorem buildPacket_terminated :
    (buildPacket .initZero chunk chunk.length sequenceNumber flag).data.Terminated := by
  have hle := cString_length_le chunk
  rw [CharArray.Terminated, buildPacket_data h, List.mem_append, List.mem_replicate]
  exact Or.inr ⟨by omega, rfl⟩

/-- **The string of a packet is the chunk up to its first zero.** -/
theorem buildPacket_str :
    (buildPacket .initZero chunk chunk.length sequenceNumber flag).data.str = cString chunk := by
  have hle := cString_length_le chunk
  obtain ⟨k, hk⟩ : ∃ k, 16 - (cString chunk).length = k + 1 :=
    ⟨15 - (cString chunk).length, by omega⟩
  rw [CharArray.str, buildPacket_data h, hk, List.replicate_succ]
  exact cString_append_zero (zero_notMem_cString chunk) _

/-- **The crc of a packet goes on over the zeros behind the string.** -/
theorem buildPacket_crc :
    (buildPacket .initZero chunk chunk.length sequenceNumber flag).crc
      = (cString chunk ++ List.replicate (chunk.length - (cString chunk).length) 0).foldl crc8 0 := by
  have hle := cString_length_le chunk
  have hcrc : (buildPacket .initZero chunk chunk.length sequenceNumber flag).crc
      = calculateCrc (buildPacket .initZero chunk chunk.length sequenceNumber flag).data.bytes
          chunk.length := rfl
  have htake : (cString chunk ++ List.replicate (16 - (cString chunk).length) (0 : UInt8)).take
      chunk.length
      = cString chunk ++ List.replicate (chunk.length - (cString chunk).length) 0 := by
    rw [List.take_append, List.take_of_length_le hle, List.take_replicate]
    congr 2
    omega
  rw [hcrc, buildPacket_data h, calculateCrc, htake]

end Chunk

end EmbeddedTestbench.PacketSerial
