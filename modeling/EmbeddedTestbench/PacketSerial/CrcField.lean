import EmbeddedTestbench.PacketSerial.ErrorDetection

/-!
# The crc of a packet as a whole (`Crc8.c`, `PacketSerial.c`)

`Crc8.c` has three ways to a crc: `Crc8`, its traditional variant with a word of 16 bits, and
`Crc8Block`, which takes up to 255 bytes. A packet has its crc beside the data, and either may come
wrong.

Headlines:
* **`calculateCrc_variants`**: the three ways agree, however a buffer is cut into blocks.
* `calculateCrc_snoc_eq_zero_iff`: a crc behind its data makes the crc zero, and no other byte does.
* **`crcField_detects`**: which errors in the data and the crc together show; of up to three wrong
  bits in a packet all do, but the first and the last bit of a full one.
-/

namespace EmbeddedTestbench.PacketSerial

open Nanopb EmbeddedTestbench.Lib

/-! ## The variants -/

/-- `POLYNOMIAL`. -/
def polynomial : UInt16 := (0x1070 : UInt16) <<< 3

/-- A turn of the loop of the traditional `Crc8`. -/
def crc8TraditionalStep (data : UInt16) : UInt16 :=
  (if data &&& 0x8000 ≠ 0 then data ^^^ polynomial else data) <<< 1

/-- The traditional `Crc8`. -/
def crc8Traditional (inCrc inData : UInt8) : UInt8 :=
  (crc8TraditionalStep^[8] ((inCrc ^^^ inData).toUInt16 <<< 8) >>> 8).toUInt8

/-- `Crc8Block`; `len` is a byte. -/
def crc8Block (crc : UInt8) (data : List UInt8) (len : UInt8) : UInt8 :=
  (data.take len.toNat).foldl crc8 crc

/-- The register is the upper byte, and the lower one stays zero. -/
theorem crc8TraditionalStep_shiftLeft (data : UInt8) :
    crc8TraditionalStep (data.toUInt16 <<< 8) = (crc8Step data).toUInt16 <<< 8 := by
  revert data
  exact forall_byte (by decide +kernel)

theorem iterate_crc8TraditionalStep : ∀ (n : Nat) (data : UInt8),
    crc8TraditionalStep^[n] (data.toUInt16 <<< 8) = (crc8Step^[n] data).toUInt16 <<< 8
  | 0, _ => rfl
  | n + 1, data => by
    rw [Function.iterate_succ_apply, crc8TraditionalStep_shiftLeft, iterate_crc8TraditionalStep n,
      Function.iterate_succ_apply]

theorem crc8Traditional_eq (inCrc inData : UInt8) :
    crc8Traditional inCrc inData = crc8 inCrc inData := by
  have hupper : ∀ data : UInt8, (data.toUInt16 <<< 8 >>> 8).toUInt8 = data :=
    forall_byte (by decide +kernel)
  rw [crc8Traditional, iterate_crc8TraditionalStep, hupper, crc8]

/-- A block that its length can tell. -/
theorem crc8Block_self (crc : UInt8) {block : List UInt8} (h : block.length < 256) :
    crc8Block crc block (UInt8.ofNat block.length) = block.foldl crc8 crc := by
  rw [crc8Block, UInt8.toNat_ofNat', Nat.mod_eq_of_lt h, List.take_length]

theorem foldl_crc8Block : ∀ {blocks : List (List UInt8)} (crc : UInt8),
    (∀ block ∈ blocks, block.length < 256) →
    blocks.foldl (fun crc block => crc8Block crc block (UInt8.ofNat block.length)) crc
      = blocks.flatten.foldl crc8 crc
  | [], _, _ => rfl
  | block :: blocks, crc, h => by
    obtain ⟨hblock, hblocks⟩ := List.forall_mem_cons.mp h
    rw [List.foldl_cons, crc8Block_self crc hblock, foldl_crc8Block _ hblocks, List.flatten_cons,
      List.foldl_append]

/-- **The three ways to a crc agree**: byte by byte with either variant of `Crc8`, and block by block
however the buffer is cut. -/
theorem calculateCrc_variants (blocks : List (List UInt8)) (h : ∀ block ∈ blocks, block.length < 256) :
    calculateCrc blocks.flatten blocks.flatten.length = blocks.flatten.foldl crc8Traditional 0 ∧
    calculateCrc blocks.flatten blocks.flatten.length
      = blocks.foldl (fun crc block => crc8Block crc block (UInt8.ofNat block.length)) 0 := by
  have hsame : crc8Traditional = crc8 := funext fun c => funext fun d => crc8Traditional_eq c d
  rw [calculateCrc_self, foldl_crc8Block 0 h, hsame]
  exact ⟨rfl, rfl⟩

/-- A text in two blocks. -/
theorem calculateCrc_variants_text :
    calculateCrc [0x74, 0x65, 0x73, 0x74] 4
      = [[0x74, 0x65, 0x73], [0x74]].foldl
          (fun crc block => crc8Block crc block (UInt8.ofNat block.length)) 0 :=
  (calculateCrc_variants [[0x74, 0x65, 0x73], [0x74]] (by decide)).2

/-! ## The crc behind its data -/

/-- **A crc behind its data makes the crc zero**, and no other byte does. -/
theorem calculateCrc_snoc_eq_zero_iff (data : List UInt8) (crc : UInt8) :
    calculateCrc (data ++ [crc]) (data ++ [crc]).length = 0 ↔ calculateCrc data data.length = crc := by
  have hzero : ∀ x : UInt8, crc8Step^[8] x = 0 → x = 0 := by
    intro x hx
    have hbits := iterate_crc8Step_toBitVec 8 x
    rw [hx] at hbits
    exact UInt8.toBitVec_inj.mp (Crc.iterate_step_eq_zero hbits.symm)
  rw [calculateCrc_self, calculateCrc_self, List.foldl_append, List.foldl_cons, List.foldl_nil, crc8]
  constructor
  · intro h
    exact UInt8.xor_eq_zero_iff.mp (hzero _ h)
  · rintro rfl
    rw [UInt8.xor_self]
    decide

variable {a b : List UInt8} {crc crc' : UInt8}

/-- What comes instead of a packet with a right crc has a right crc when their difference, crc and
all, leaves nothing in the register. -/
theorem crcField_register_iff (hlen : a.length = b.length)
    (hcrc : calculateCrc a a.length = crc) : calculateCrc b b.length = crc' ↔
      Crc.register crc8Polynomial (List.zipWith xor (bits (a ++ [crc])) (bits (b ++ [crc']))) = 0#8 := by
  have hlen' : (a ++ [crc]).length = (b ++ [crc']).length := by
    rw [List.length_append, List.length_append, hlen]
    rfl
  rw [← calculateCrc_eq_iff hlen', (calculateCrc_snoc_eq_zero_iff a crc).mpr hcrc,
    ← calculateCrc_snoc_eq_zero_iff b crc']
  exact eq_comm

/-- **Which errors in the data and the crc together show**: an odd number of wrong bits, wrong bits
within eight positions, and two whose distance is not a multiple of 127. Of up to three wrong bits
in at most 15 bytes and their crc, all show but the first and the last bit of the longest. -/
theorem crcField_detects (a b : List UInt8) (crc crc' : UInt8) (hlen : a.length = b.length)
    (hcrc : calculateCrc a a.length = crc) (hne : a ++ [crc] ≠ b ++ [crc']) :
    (Detected (differingBits (a ++ [crc]) (b ++ [crc'])) → calculateCrc b b.length ≠ crc') ∧
    (a.length ≤ 15 → (differingBits (a ++ [crc]) (b ++ [crc'])).card ≤ 3 →
      (calculateCrc b b.length = crc' ↔ differingBits (a ++ [crc]) (b ++ [crc']) = {0, 127})) := by
  have hlen' : (a ++ [crc]).length = (b ++ [crc']).length := by
    rw [List.length_append, List.length_append, hlen]
    rfl
  have hones := ones_zipWith_xor hlen'
  have hdetected : Detected (differingBits (a ++ [crc]) (b ++ [crc'])) →
      calculateCrc b b.length ≠ crc' := by
    intro h hcrc'
    refine calculateCrc_ne_of_detected hlen' hne h ?_
    rw [(calculateCrc_snoc_eq_zero_iff a crc).mpr hcrc,
      (calculateCrc_snoc_eq_zero_iff b crc').mpr hcrc']
  refine ⟨hdetected, fun hshort hcard => ⟨fun hcrc' => ?_, fun hset => ?_⟩⟩
  · have hpos : 0 < (differingBits (a ++ [crc]) (b ++ [crc'])).card := by
      rw [← hones, Crc.card_ones, List.count_pos_iff]
      exact true_mem_zipWith_xor hlen' hne
    have hbelow : ∀ i ∈ differingBits (a ++ [crc]) (b ++ [crc']), i < 128 := by
      intro i hi
      rw [differingBits, Finset.mem_filter, Finset.mem_range, List.length_append,
        List.length_singleton] at hi
      omega
    -- one wrong bit or three would show, so there are two, and as far apart as they can be
    have heven : ¬ Odd (differingBits (a ++ [crc]) (b ++ [crc'])).card := fun hodd =>
      hdetected (Or.inl hodd) hcrc'
    have htwo : (differingBits (a ++ [crc]) (b ++ [crc'])).card = 2 := by
      rw [Nat.not_odd_iff_even, Nat.even_iff] at heven
      omega
    have hpair : ∀ i j, i < j → differingBits (a ++ [crc]) (b ++ [crc']) = {i, j} →
        i = 0 ∧ j = 127 := by
      intro i j hij hset
      have hj := hbelow j (by rw [hset]; exact Finset.mem_insert_of_mem (Finset.mem_singleton_self j))
      have hdvd : 127 ∣ j - i := by
        by_contra hdist
        exact hdetected (Or.inr (Or.inr ⟨i, j, hij, hset, hdist⟩)) hcrc'
      have := Nat.le_of_dvd (by omega) hdvd
      omega
    obtain ⟨i, j, hij, hset⟩ := Finset.card_eq_two.mp htwo
    rcases Nat.lt_or_gt_of_ne hij with hlt | hlt
    · obtain ⟨rfl, rfl⟩ := hpair i j hlt hset
      exact hset
    · rw [Finset.pair_comm] at hset
      obtain ⟨rfl, rfl⟩ := hpair j i hlt hset
      exact hset
  · rw [crcField_register_iff hlen hcrc]
    rw [← hones] at hset
    rw [Crc.register_eq_zero_iff_of_two (by decide : 0 < 127) hset, minimalPeriod_crc8Polynomial]

/-- One wrong bit in the crc of a text. -/
theorem crcField_detects_text :
    let text : List UInt8 := [0x74, 0x65, 0x73, 0x74]
    calculateCrc text text.length ≠ calculateCrc text text.length ^^^ 1 := by
  intro text
  have hodd : Detected (differingBits (text ++ [calculateCrc text text.length])
      (text ++ [calculateCrc text text.length ^^^ 1])) := Or.inl (by decide +kernel)
  exact (crcField_detects text text _ _ rfl rfl (by decide +kernel)).1 hodd

end EmbeddedTestbench.PacketSerial
