import Mathlib.Dynamics.PeriodicPts.Lemmas
import Mathlib.Tactic.NormNum.Prime
import EmbeddedTestbench.Lib.Crc
import EmbeddedTestbench.PacketSerial.Build

/-!
# What `calculate_crc` detects (`PacketSerial.c`, `Crc8.c`)

`Crc8` is the register of `x ^ 8 + x ^ 2 + x + 1` over the eight bits of a byte, so the crc of a
buffer is the check value of its bits. The polynomial has the factor `x + 1`, and the period of
its register is 127.

Headlines:
* **`calculateCrc_toBitVec`**: the crc of a buffer is the check value of its bits.
* **`calculateCrc_ne`**: which differences between two buffers the crc shows.
-/

namespace EmbeddedTestbench.PacketSerial

open Nanopb EmbeddedTestbench.Lib

/-- The polynomial of `Crc8`, without `x ^ 8`. -/
def crc8Polynomial : Crc.Generator 8 := ⟨0x07#8, rfl⟩

/-- The bits of a byte, the most significant first. -/
def byteBits (byte : UInt8) : List Bool :=
  [7, 6, 5, 4, 3, 2, 1, 0].map fun i => byte.toNat.testBit i

/-- The bits of a buffer, bytes in order. -/
def bits (buffer : List UInt8) : List Bool := buffer.flatMap byteBits

/-- The bit positions in which two buffers of one length differ. -/
def differingBits (a b : List UInt8) : Finset Nat :=
  (Finset.range (8 * a.length)).filter fun i => (bits a)[i]? ≠ (bits b)[i]?

/-- An odd number of positions, positions within eight, or two whose distance is not a multiple
of 127. -/
def Detected (positions : Finset Nat) : Prop :=
  Odd positions.card ∨ (∃ start, ∀ i ∈ positions, start ≤ i ∧ i < start + 8) ∨
    ∃ i j, i < j ∧ positions = {i, j} ∧ ¬ 127 ∣ j - i

/-! ## The crc as a register -/

theorem crc8Step_toBitVec (data : UInt8) :
    (crc8Step data).toBitVec = Crc.step crc8Polynomial data.toBitVec := by
  revert data
  exact forall_byte (by decide +kernel)

theorem word_byteBits (byte : UInt8) : Crc.word (byteBits byte) = byte.toBitVec := by
  revert byte
  exact forall_byte (by decide +kernel)

theorem iterate_crc8Step_toBitVec : ∀ (n : Nat) (data : UInt8),
    (crc8Step^[n] data).toBitVec = (Crc.step crc8Polynomial)^[n] data.toBitVec
  | 0, _ => rfl
  | n + 1, data => by
    rw [Function.iterate_succ_apply, iterate_crc8Step_toBitVec n, crc8Step_toBitVec,
      Function.iterate_succ_apply]

/-- `Crc8` takes the bits of a byte. -/
theorem crc8_toBitVec (inCrc inData : UInt8) :
    (crc8 inCrc inData).toBitVec
      = (byteBits inData).foldl (Crc.feed crc8Polynomial) inCrc.toBitVec := by
  have hlength : (byteBits inData).length ≤ 8 := Nat.le_refl 8
  have hregister := Crc.iterate_step_word (g := crc8Polynomial) hlength
  rw [word_byteBits] at hregister
  rw [Crc.foldl_feed, ← hregister, crc8, iterate_crc8Step_toBitVec, UInt8.toBitVec_xor,
    Crc.iterate_step_xor]
  rfl

theorem foldl_crc8_toBitVec : ∀ (buffer : List UInt8) (crc : UInt8),
    (buffer.foldl crc8 crc).toBitVec
      = (bits buffer).foldl (Crc.feed crc8Polynomial) crc.toBitVec
  | [], _ => rfl
  | byte :: buffer, crc => by
    rw [List.foldl_cons, foldl_crc8_toBitVec buffer, crc8_toBitVec, ← List.foldl_append]
    rfl

/-- **The crc of a buffer is the check value of its bits.** -/
theorem calculateCrc_toBitVec (buffer : List UInt8) :
    (calculateCrc buffer buffer.length).toBitVec = Crc.register crc8Polynomial (bits buffer) := by
  rw [calculateCrc_self, foldl_crc8_toBitVec]
  rfl

theorem parity_crc8Polynomial : Crc.parity crc8Polynomial.poly = true := rfl

/-- The period of the register is 127. -/
theorem minimalPeriod_crc8Polynomial :
    Function.minimalPeriod (Crc.step crc8Polynomial) crc8Polynomial.poly = 127 := by
  have : Fact (Nat.Prime 127) := ⟨by norm_num⟩
  refine Function.minimalPeriod_eq_prime ?_ ?_
  · show (Crc.step crc8Polynomial)^[127] crc8Polynomial.poly = crc8Polynomial.poly
    decide +kernel
  · show Crc.step crc8Polynomial crc8Polynomial.poly ≠ crc8Polynomial.poly
    decide

/-! ## The bits of a buffer -/

theorem bits_length : ∀ buffer : List UInt8, (bits buffer).length = 8 * buffer.length
  | [] => rfl
  | byte :: buffer => by
    have htail := bits_length buffer
    rw [bits, List.flatMap_cons, List.length_append, List.length_cons]
    unfold bits at htail
    rw [htail, Nat.mul_succ, Nat.add_comm]
    rfl

theorem bits_getElem? : ∀ (buffer : List UInt8) (i : Nat),
    (bits buffer)[i]? = buffer[i / 8]?.bind fun byte => (byteBits byte)[i % 8]?
  | [], i => by rw [bits, List.flatMap_nil, List.getElem?_nil, List.getElem?_nil, Option.bind_none]
  | byte :: buffer, i => by
    have hlength : (byteBits byte).length = 8 := rfl
    rw [bits, List.flatMap_cons, ← bits]
    by_cases hi : i < 8
    · rw [List.getElem?_append_left (by omega), Nat.div_eq_of_lt hi, Nat.mod_eq_of_lt hi]
      rfl
    · have hdiv : i / 8 = (i - 8) / 8 + 1 := by omega
      have hmod : i % 8 = (i - 8) % 8 := by omega
      rw [List.getElem?_append_right (by omega), hlength, bits_getElem? buffer, hdiv, hmod,
        List.getElem?_cons_succ]

theorem bits_injective : ∀ {a b : List UInt8}, a.length = b.length → bits a = bits b → a = b
  | [], [], _, _ => rfl
  | x :: a, y :: b, hlen, h => by
    have hbits : byteBits x ++ bits a = byteBits y ++ bits b := h
    obtain ⟨hhead, htail⟩ := List.append_inj hbits rfl
    have hword := congrArg (Crc.word (w := 8)) hhead
    rw [word_byteBits, word_byteBits] at hword
    rw [UInt8.toBitVec_inj.mp hword, bits_injective (Nat.succ.inj hlen) htail]

/-! ## Two buffers -/

section Buffers

variable {a b : List UInt8} (hlen : a.length = b.length)
include hlen

/-- The differing positions are the ones of the difference. -/
theorem ones_zipWith_xor : Crc.ones (List.zipWith xor (bits a) (bits b)) = differingBits a b := by
  have ha := bits_length a
  have hb := bits_length b
  ext i
  rw [Crc.mem_ones, differingBits, Finset.mem_filter, Finset.mem_range, List.getElem?_zipWith]
  by_cases hi : i < 8 * a.length
  · rw [and_iff_right hi, List.getElem?_eq_getElem (by omega : i < (bits a).length),
      List.getElem?_eq_getElem (by omega : i < (bits b).length)]
    cases (bits a)[i] <;> cases (bits b)[i] <;> decide
  · rw [List.getElem?_eq_none (by omega : (bits a).length ≤ i)]
    exact iff_of_false (fun h => by cases h) fun h => hi h.1

theorem true_mem_zipWith_xor (hne : a ≠ b) : true ∈ List.zipWith xor (bits a) (bits b) := by
  by_contra hnone
  refine hne (bits_injective hlen (List.ext_getElem? fun i => ?_))
  by_contra hdiff
  have hlength := bits_length a
  have hmem : i ∈ differingBits a b := by
    rw [differingBits, Finset.mem_filter, Finset.mem_range]
    refine ⟨?_, hdiff⟩
    by_contra hi
    have hlength' := bits_length b
    exact hdiff (by rw [List.getElem?_eq_none (by omega), List.getElem?_eq_none (by omega)])
  rw [← ones_zipWith_xor hlen, Crc.mem_ones] at hmem
  exact hnone (List.mem_of_getElem? hmem)

theorem calculateCrc_eq_iff : calculateCrc a a.length = calculateCrc b b.length ↔
    Crc.register crc8Polynomial (List.zipWith xor (bits a) (bits b)) = 0#8 := by
  have hbits : (bits a).length = (bits b).length := by rw [bits_length, bits_length, hlen]
  rw [← UInt8.toBitVec_inj, calculateCrc_toBitVec, calculateCrc_toBitVec,
    Crc.register_eq_iff crc8Polynomial hbits]

theorem calculateCrc_ne_of_detected (hne : a ≠ b) (h : Detected (differingBits a b)) :
    calculateCrc a a.length ≠ calculateCrc b b.length := by
  rw [Ne, calculateCrc_eq_iff hlen]
  rw [← ones_zipWith_xor hlen] at h
  rcases h with hodd | ⟨start, hburst⟩ | ⟨i, j, hij, htwo, hdist⟩
  · exact Crc.register_ne_zero_of_odd parity_crc8Polynomial hodd
  · exact Crc.register_ne_zero_of_burst (true_mem_zipWith_xor hlen hne) start hburst
  · rwa [Crc.register_eq_zero_iff_of_two hij htwo, minimalPeriod_crc8Polynomial]

end Buffers

/-- Two buffers that differ in one byte differ within eight positions. -/
theorem detected_of_one_byte {a b : List UInt8} {k : Nat} (h : ∀ i, i ≠ k → a[i]? = b[i]?) :
    Detected (differingBits a b) := by
  refine Or.inr (Or.inl ⟨8 * k, fun i hi => ?_⟩)
  rw [differingBits, Finset.mem_filter, bits_getElem?, bits_getElem?] at hi
  have hbyte : i / 8 = k := by
    by_contra hother
    exact hi.2 (by rw [h _ hother])
  omega

/-- Up to three positions among 120. -/
theorem detected_of_card_le {positions : Finset Nat} (hpos : 0 < positions.card)
    (hcard : positions.card ≤ 3) (h : ∀ i ∈ positions, i < 120) : Detected positions := by
  by_cases htwo : positions.card = 2
  · obtain ⟨i, j, hne, hset⟩ := Finset.card_eq_two.mp htwo
    have hi : i < 120 := h i (by rw [hset]; exact Finset.mem_insert_self _ _)
    have hj : j < 120 := h j (by rw [hset]; exact Finset.mem_insert_of_mem (Finset.mem_singleton_self _))
    rcases Nat.lt_or_gt_of_ne hne with hlt | hlt
    · exact Or.inr (Or.inr ⟨i, j, hlt, hset, by omega⟩)
    · exact Or.inr (Or.inr ⟨j, i, hlt, by rw [hset, Finset.pair_comm], by omega⟩)
  · exact Or.inl (Nat.odd_iff.mpr (by omega))

/-- **What the crc of two buffers shows**: an odd number of differing bits, differing bits within
eight positions, as in one byte, and two whose distance is not a multiple of 127. In at most 15
bytes it shows up to three differing bits. -/
theorem calculateCrc_ne (n : Nat) (a b : List UInt8) (ha : a.length = n) (hb : b.length = n)
    (hne : a ≠ b) :
    (Detected (differingBits a b) → calculateCrc a n ≠ calculateCrc b n) ∧
    ((∃ k : Nat, ∀ i, i ≠ k → a[i]? = b[i]?) → calculateCrc a n ≠ calculateCrc b n) ∧
    (n ≤ 15 → (differingBits a b).card ≤ 3 → calculateCrc a n ≠ calculateCrc b n) := by
  have hlen : a.length = b.length := by rw [ha, hb]
  have hdetected : Detected (differingBits a b) → calculateCrc a n ≠ calculateCrc b n := by
    intro h
    have := calculateCrc_ne_of_detected hlen hne h
    rwa [ha, hb] at this
  refine ⟨hdetected, ?_, ?_⟩
  · rintro ⟨k, hk⟩
    exact hdetected (detected_of_one_byte hk)
  · intro hn hcard
    refine hdetected (detected_of_card_le ?_ hcard fun i hi => ?_)
    · rw [← ones_zipWith_xor hlen, Crc.card_ones, List.count_pos_iff]
      exact true_mem_zipWith_xor hlen hne
    · rw [differingBits, Finset.mem_filter, Finset.mem_range] at hi
      omega

/-- The texts of the test, and two bits that are 128 positions apart. -/
theorem calculateCrc_ne_test :
    calculateCrc [0x74, 0x65, 0x73, 0x74] 4 ≠ calculateCrc [0x74, 0x65, 0x73, 0x73] 4 ∧
    calculateCrc (0x80 :: List.replicate 16 0) 17
      ≠ calculateCrc (List.replicate 16 0 ++ [0x80]) 17 := by
  constructor
  · exact (calculateCrc_ne 4 _ _ rfl rfl (by decide)).2.2 (by decide) (by decide +kernel)
  · exact (calculateCrc_ne 17 _ _ rfl rfl (by decide)).1
      (Or.inr (Or.inr ⟨0, 128, by decide, by decide +kernel, by decide⟩))

end EmbeddedTestbench.PacketSerial
