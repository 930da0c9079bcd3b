import Mathlib.Algebra.Order.Ring.Int
import EmbeddedTestbench.Nanopb.Decode
import EmbeddedTestbench.Nanopb.Encode

/-!
# Numbers on the wire (`pb_encode.c`, `pb_decode.c`)

The five types that can be packed: signed, unsigned and zigzag varints, and the two fixed sizes. A
number in memory is the `Int` that its `data_size` bytes stand for; an unsigned or fixed one is not
negative.

Headlines:
* **`pbDecodeVarint_exact`**: what `pb_decode_varint` does on any bytes. A varint of ten bytes may
  have a value from `2 ^ 64` on, and is cut off.
* **`decodeScalar_reads`**: a number of each type is read back, for every size of its member.
* **`pbDecVarint_cut`**: a signed member of four bytes takes every varint, where an unsigned one
  rejects what is too large.
-/

namespace EmbeddedTestbench.Nanopb

open IStream OStream EmbeddedTestbench.Lib

variable {P : Type}

/-! ## Definitions -/

/-- The `PB_LTYPE`s up to `PB_LTYPE_LAST_PACKABLE`. -/
inductive ScalarType where
  | varint
  | uvarint
  | svarint
  | fixed32
  | fixed64
  deriving DecidableEq, Repr

/-- The cast of an integer to the signed type of `size` bytes. -/
def toSigned (size : Nat) (value : Int) : Int := value.bmod (256 ^ size)

/-- `pb_encode_svarint`. -/
def pbEncodeSvarint (value : Int) : OStream → Bool × OStream :=
  let zigzagged : UInt64 :=
    if value < 0 then ~~~(UInt64.ofInt value <<< 1) else UInt64.ofInt value <<< 1
  pbEncodeVarint zigzagged

/-- `pb_decode_svarint`. -/
def pbDecodeSvarint (s : IStream) : Option Int × IStream :=
  match pbDecodeVarint s with
  | (none, s) => (none, s)
  | (some value, s) =>
    if value &&& 1 ≠ 0 then (some (toSigned 8 (~~~(value >>> 1)).toNat), s)
    else (some (toSigned 8 (value >>> 1).toNat), s)

/-- The `n` bytes that `pb_encode_fixed32` and `pb_encode_fixed64` write, from the lowest on. -/
def fixedBytes (n : Nat) (val : UInt64) : List UInt8 :=
  (List.range n).map fun i => ((val >>> UInt64.ofNat (8 * i)) &&& 0xFF).toUInt8

/-- The bytes from place `i` on, each shifted to its place, and joined with `|`. -/
def ofFixedBytes : Nat → List UInt8 → UInt64
  | _, [] => 0
  | i, b :: bs => (b.toUInt64 <<< UInt64.ofNat (8 * i)) ||| ofFixedBytes (i + 1) bs

/-- `pb_encode_fixed32`. -/
def pbEncodeFixed32 (val : UInt64) : OStream → Bool × OStream := pbWrite (fixedBytes 4 val)

/-- `pb_encode_fixed64`. -/
def pbEncodeFixed64 (val : UInt64) : OStream → Bool × OStream := pbWrite (fixedBytes 8 val)

/-- `pb_decode_fixed32` and `pb_decode_fixed64`. -/
def decodeFixed (n : Nat) (s : IStream) : Option UInt64 × IStream :=
  let (bytes, s) := pbRead s n
  (bytes.map (ofFixedBytes 0), s)

/-- `pb_decode_fixed32`. -/
def pbDecodeFixed32 : IStream → Option UInt64 × IStream := decodeFixed 4

/-- `pb_decode_fixed64`. -/
def pbDecodeFixed64 : IStream → Option UInt64 × IStream := decodeFixed 8

/-- `pb_enc_varint` and `pb_enc_svarint`, which have their own `encode`. -/
def encSigned (encode : Int → OStream → Bool × OStream) (field : PbField P) (src : Int)
    (s : OStream) : Bool × OStream :=
  if validDataSize field.dataSize then encode src s else (false, s.setError "invalid data_size")

/-- `pb_enc_varint`. -/
def pbEncVarint : PbField P → Int → OStream → Bool × OStream :=
  encSigned fun value => pbEncodeVarint (UInt64.ofInt value)

/-- `pb_enc_svarint`. -/
def pbEncSvarint : PbField P → Int → OStream → Bool × OStream := encSigned pbEncodeSvarint

/-- The cast to the size of the member, and the check behind it. -/
def storeSigned (field : PbField P) (dest svalue : Int) (s : IStream) : (Bool × Int) × IStream :=
  if validDataSize field.dataSize then
    let clamped := toSigned field.dataSize svalue
    if clamped ≠ svalue then ((false, clamped), s.setError "integer too large")
    else ((true, clamped), s)
  else ((false, dest), s.setError "invalid data_size")

/-- `pb_dec_varint`: the value is cast to 32 bits first, unless the member has 64. -/
def pbDecVarint (field : PbField P) (dest : Int) (s : IStream) : (Bool × Int) × IStream :=
  match pbDecodeVarint s with
  | (none, s) => ((false, dest), s)
  | (some value, s) =>
    let svalue := if field.dataSize = 8 then toSigned 8 value.toNat else toSigned 4 value.toNat
    storeSigned field dest svalue s

/-- `pb_dec_svarint`. -/
def pbDecSvarint (field : PbField P) (dest : Int) (s : IStream) : (Bool × Int) × IStream :=
  match pbDecodeSvarint s with
  | (none, s) => ((false, dest), s)
  | (some value, s) => storeSigned field dest value s

/-- `pb_dec_fixed32` and `pb_dec_fixed64`. -/
def decFixed (decode : IStream → Option UInt64 × IStream) (dest : Int) (s : IStream) :
    (Bool × Int) × IStream :=
  match decode s with
  | (none, s) => ((false, dest), s)
  | (some val, s) => ((true, val.toNat), s)

/-- `PB_ENCODERS`, up to `PB_LTYPE_LAST_PACKABLE`. -/
def encodeScalar (type : ScalarType) (field : PbField P) (src : Int) : OStream → Bool × OStream :=
  match type with
  | .varint => pbEncVarint field src
  | .uvarint => pbEncUvarint field (UInt64.ofInt src)
  | .svarint => pbEncSvarint field src
  | .fixed32 => pbEncodeFixed32 (UInt64.ofInt src)
  | .fixed64 => pbEncodeFixed64 (UInt64.ofInt src)

/-- `PB_DECODERS`, up to `PB_LTYPE_LAST_PACKABLE`. -/
def decodeScalar (type : ScalarType) (field : PbField P) (dest : Int) (s : IStream) :
    (Bool × Int) × IStream :=
  match type with
  | .varint => pbDecVarint field dest s
  | .uvarint =>
    let ((ok, slot), s) := pbDecUvarint field (.uint (UInt64.ofInt dest)) s
    ((ok, slot.value.toNat), s)
  | .svarint => pbDecSvarint field dest s
  | .fixed32 => decFixed pbDecodeFixed32 dest s
  | .fixed64 => decFixed pbDecodeFixed64 dest s

/-- The value is one of the member's type. -/
def ScalarType.Holds (type : ScalarType) (field : PbField P) (value : Int) : Prop :=
  match type with
  | .varint | .svarint => validDataSize field.dataSize = true ∧ toSigned field.dataSize value = value
  | .uvarint => validDataSize field.dataSize = true ∧ 0 ≤ value ∧ value < 256 ^ field.dataSize
  | .fixed32 => 0 ≤ value ∧ value < 2 ^ 32
  | .fixed64 => 0 ≤ value ∧ value < 2 ^ 64

/-- Signed numbers in the order 0, -1, 1, -2, 2, … -/
def zigzag (value : Int) : Nat := if value < 0 then (-2 * value - 1).toNat else (2 * value).toNat

/-- The bytes of a number on the wire. -/
def scalarBytes (type : ScalarType) (value : Int) : List UInt8 :=
  match type with
  | .varint | .uvarint => Base128.encode (UInt64.ofInt value).toNat
  | .svarint => Base128.encode (zigzag value)
  | .fixed32 => fixedBytes 4 (UInt64.ofInt value)
  | .fixed64 => fixedBytes 8 (UInt64.ofInt value)

/-! ## Every varint of 64 bits -/

/-- The digit at place `i < 10`: what lies past bit 63 is lost. -/
theorem varint_digit_mod {i : Nat} (hi : i < 10) {result : UInt64} (b : UInt8)
    (hr : result.toNat < 2 ^ (7 * i)) :
    (result ||| ((b &&& 0x7F).toUInt64 <<< (UInt8.ofNat (7 * i)).toUInt64)).toNat
      = (result.toNat + 2 ^ (7 * i) * (b.toNat % 128)) % 2 ^ 64 := by
  have hpos : (UInt8.ofNat (7 * i)).toNat = 7 * i := by
    rw [UInt8.toNat_ofNat', Nat.mod_eq_of_lt (by omega)]
  have hplace : 7 * i % 64 = 7 * i := by omega
  have hsplit : 2 ^ 64 = 2 ^ (7 * i) * 2 ^ (64 - 7 * i) := by
    rw [← Nat.pow_add, Nat.add_sub_cancel' (by omega)]
  have hshift : ((b &&& 0x7F).toUInt64 <<< (UInt8.ofNat (7 * i)).toUInt64).toNat
      = 2 ^ (7 * i) * (b.toNat % 128 % 2 ^ (64 - 7 * i)) := by
    rw [UInt64.toNat_shiftLeft, UInt8.toNat_toUInt64, UInt8.toNat_toUInt64, toNat_and_7F, hpos,
      hplace, Nat.shiftLeft_eq, Nat.mul_comm, hsplit, Nat.mul_mod_mul_left]
  have hlow : (result.toNat + 2 ^ (7 * i) * (b.toNat % 128)) % 2 ^ (7 * i) = result.toNat := by
    rw [Nat.add_mul_mod_self_left, Nat.mod_eq_of_lt hr]
  have hhigh : (result.toNat + 2 ^ (7 * i) * (b.toNat % 128)) / 2 ^ (7 * i) = b.toNat % 128 := by
    rw [Nat.add_mul_div_left _ _ (Nat.two_pow_pos _), Nat.div_eq_of_lt hr, Nat.zero_add]
  rw [UInt64.toNat_or, hshift, Nat.or_comm, ← Nat.two_pow_add_eq_or_of_lt hr, hsplit, Nat.mod_mul,
    hlow, hhigh, Nat.add_comm]

/-- The loop at place `i`, on a varint of any value. -/
theorem varintLoop_cut {r t : List UInt8} {e : Option String} : ∀ {u : List UInt8},
    Base128.IsVarint u → ∀ {i : Nat}, i + u.length ≤ 10 → ∀ {result : UInt64},
      result.toNat < 2 ^ (7 * i) →
      varintLoop (u ++ r).length (window (u ++ r) t e) (UInt8.ofNat (7 * i)) result
        = (some (UInt64.ofNat (result.toNat + 2 ^ (7 * i) * Base128.value u)), window r t e)
  | [], hu, _, _, _, _ => hu.elim
  | b :: bs, hu, i, hi, result, hr => by
    rw [List.length_cons] at hi
    have hval := varint_digit_mod (i := i) (by omega) b hr
    rw [List.cons_append, List.length_cons, varintLoop_cons, if_neg (bitpos64_lt i (by omega)),
      Base128.value, digit_split]
    by_cases hb : b.toNat < 128
    · obtain rfl := (Base128.isVarint_small hb).mp hu
      rw [if_neg (not_and_80_ne_zero hb), List.nil_append, Prod.mk.injEq, Option.some.injEq,
        ← UInt64.toNat_inj, hval, UInt64.toNat_ofNat', Base128.value, Nat.mul_zero, Nat.add_zero]
      exact ⟨rfl, rfl⟩
    · have hbs := (Base128.isVarint_cons (by omega)).mp hu
      have hpos := List.length_pos_of_ne_nil hbs.ne_nil
      have hr' := digit_lt hr b.toNat
      have hno : 2 ^ (7 * (i + 1)) ≤ 2 ^ 64 := Nat.pow_le_pow_right (by decide) (by omega)
      rw [Nat.mod_eq_of_lt (hr'.trans_le hno)] at hval
      rw [if_pos (and_80_ne_zero (by omega)), bitpos64_succ i (by omega),
        varintLoop_cut hbs (i := i + 1) (by omega) (by rw [hval]; exact hr'), hval, Nat.add_assoc]

/-- A varint of up to ten bytes is read, and its value cut off. -/
theorem pbDecodeVarint_reads {u : List UInt8} (hu : Base128.IsVarint u) (hlen : u.length ≤ 10) :
    Reads pbDecodeVarint u (some (UInt64.ofNat (Base128.value u))) := by
  intro r t e
  have hstart : (0 : UInt64).toNat < 2 ^ (7 * 0) := by decide
  have h := varintLoop_cut (r := r) (t := t) (e := e) hu (i := 0) (by omega) hstart
  simpa [pbDecodeVarint] using h

/-- The loop over bytes of which none is the last. -/
theorem varintLoop_more {r t : List UInt8} {e : Option String} : ∀ {v : List UInt8},
    (∀ b ∈ v, 128 ≤ b.toNat) → ∀ {i : Nat}, i + v.length ≤ 10 → ∀ (result : UInt64), ∃ result',
      varintLoop (v ++ r).length (window (v ++ r) t e) (UInt8.ofNat (7 * i)) result
        = varintLoop r.length (window r t e) (UInt8.ofNat (7 * (i + v.length))) result'
  | [], _, _, _, result => ⟨result, rfl⟩
  | b :: v, hv, i, hi, result => by
    rw [List.length_cons] at hi
    obtain ⟨result', h⟩ := varintLoop_more (r := r) (t := t) (e := e)
      (fun c hc => hv c (List.mem_cons_of_mem b hc)) (i := i + 1) (by omega)
      (result ||| ((b &&& 0x7F).toUInt64 <<< (UInt8.ofNat (7 * i)).toUInt64))
    refine ⟨result', ?_⟩
    rw [List.cons_append, List.length_cons, varintLoop_cons, if_neg (bitpos64_lt i (by omega)),
      if_pos (and_80_ne_zero (hv b List.mem_cons_self)), bitpos64_succ i (by omega), h,
      List.length_cons, Nat.add_assoc, Nat.add_comm 1]

/-- Every byte of a varint but its last one has the high bit. -/
theorem isVarint_take_more : ∀ {u : List UInt8}, Base128.IsVarint u → ∀ {n : Nat}, n < u.length →
    ∀ b ∈ u.take n, 128 ≤ b.toNat
  | [], hu, _, _, _, _ => hu.elim
  | _ :: _, _, 0, _, c, hc => absurd hc (by simp)
  | b :: bs, hu, n + 1, hn, c, hc => by
    rw [List.length_cons] at hn
    have hb : 128 ≤ b.toNat := by
      by_contra hlt
      obtain rfl := (Base128.isVarint_small (by omega)).mp hu
      simp at hn
    rcases List.mem_cons.mp hc with rfl | hc
    · exact hb
    · exact isVarint_take_more ((Base128.isVarint_cons hb).mp hu) (by omega) c hc

/-- **What `pb_decode_varint` does on any bytes**: it takes a varint of up to ten bytes and cuts its
value off to 64 bits; it gives up behind ten bytes that all have the high bit, and at the end of the
window. -/
theorem pbDecodeVarint_exact (w t : List UInt8) (e : Option String) :
    (∃ u r, w = u ++ r ∧ Base128.IsVarint u ∧ u.length ≤ 10 ∧
      pbDecodeVarint (window w t e) = (some (UInt64.ofNat (Base128.value u)), window r t e)) ∨
    (∃ v r, w = v ++ r ∧ v.length = 10 ∧ (∀ b ∈ v, 128 ≤ b.toNat) ∧
      pbDecodeVarint (window w t e) = (none, window r t (e.or (some "varint overflow")))) ∨
    (w.length < 10 ∧ (∀ b ∈ w, 128 ≤ b.toNat) ∧
      pbDecodeVarint (window w t e) = (none, window [] t (e.or (some "end-of-stream")))) := by
  have hlong : ∀ v r : List UInt8, v.length = 10 → (∀ b ∈ v, 128 ≤ b.toNat) →
      pbDecodeVarint (window (v ++ r) t e) = (none, window r t (e.or (some "varint overflow"))) := by
    intro v r hlen hv
    obtain ⟨result, h⟩ := varintLoop_more (r := r) (t := t) (e := e) hv (i := 0) (by omega) 0
    have hover : (64 : UInt8) ≤ UInt8.ofNat (7 * (0 + v.length)) := by
      rw [hlen]
      decide
    refine h.trans ?_
    cases r <;> exact if_pos hover
  rcases Base128.split_or_all_more w with ⟨u, r, rfl, hu⟩ | h
  · by_cases hlen : u.length ≤ 10
    · exact Or.inl ⟨u, r, rfl, hu, hlen, pbDecodeVarint_reads hu hlen r t e⟩
    · have hlen' : (u.take 10).length = 10 := List.length_take_of_le (by omega)
      have hmore := isVarint_take_more hu (n := 10) (by omega)
      refine Or.inr (Or.inl ⟨u.take 10, u.drop 10 ++ r, ?_, hlen', hmore, ?_⟩)
      · rw [← List.append_assoc, List.take_append_drop]
      · have h := hlong (u.take 10) (u.drop 10 ++ r) hlen' hmore
        rwa [← List.append_assoc, List.take_append_drop] at h
  · by_cases hlen : w.length < 10
    · refine Or.inr (Or.inr ⟨hlen, h, ?_⟩)
      obtain ⟨result, hrun⟩ := varintLoop_more (r := []) (t := t) (e := e) h (i := 0) (by omega) 0
      rw [List.append_nil, Nat.zero_add] at hrun
      exact hrun.trans (if_neg (bitpos64_lt w.length hlen))
    · have hlen' : (w.take 10).length = 10 := List.length_take_of_le (by omega)
      have hmore : ∀ b ∈ w.take 10, 128 ≤ b.toNat := fun b hb => h b (List.mem_of_mem_take hb)
      refine Or.inr (Or.inl ⟨w.take 10, w.drop 10, (List.take_append_drop 10 w).symm, hlen', hmore,
        ?_⟩)
      have hfail := hlong (w.take 10) (w.drop 10) hlen' hmore
      rwa [List.take_append_drop] at hfail

/-! ## Signed numbers -/

variable {field : PbField P}

/-- The sizes of an integer member. -/
theorem validDataSize_iff (n : Nat) : validDataSize n = true ↔ n = 8 ∨ n = 4 ∨ n = 2 ∨ n = 1 := by
  simp [validDataSize, or_assoc]

theorem toNat_ofInt (value : Int) : ((UInt64.ofInt value).toNat : Int) = value % 2 ^ 64 := by
  have hnonneg : 0 ≤ value % 2 ^ 64 := Int.emod_nonneg _ (by decide)
  have hlt : value % 2 ^ 64 < 2 ^ 64 := Int.emod_lt_of_pos _ (by decide)
  rw [UInt64.ofInt, UInt64.toNat_ofNat', Nat.mod_eq_of_lt (by omega), Int.toNat_of_nonneg hnonneg]

/-- The numbers of the signed type of `n` bytes, for the sizes of a member. -/
theorem toSigned_eq_iff {n : Nat} (h : validDataSize n = true) (value : Int) :
    toSigned n value = value ↔ -(256 ^ n / 2) ≤ value ∧ value < 256 ^ n / 2 := by
  unfold toSigned
  rw [Int.bmod_def]
  rcases (validDataSize_iff n).mp h with rfl | rfl | rfl | rfl <;> norm_num <;> split_ifs <;> omega

/-- In 64 bits, the two's complement of the number is cast back to it. -/
theorem toSigned_toNat_ofInt {n : Nat} (hn : n = 8 ∨ n = 4) {value : Int}
    (h : toSigned n value = value) : toSigned n (UInt64.ofInt value).toNat = value := by
  rw [toNat_ofInt]
  unfold toSigned at h ⊢
  rw [Int.bmod_def] at h ⊢
  rcases hn with rfl | rfl <;> norm_num at h ⊢ <;> split_ifs at h ⊢ <;> omega

/-- A number of a smaller type is one of the larger type. -/
theorem toSigned_of_le {n : Nat} (h : validDataSize n = true) {value : Int}
    (hvalue : toSigned n value = value) : toSigned 8 value = value ∧ (n ≠ 8 → toSigned 4 value = value) := by
  rw [toSigned_eq_iff h] at hvalue
  rw [toSigned_eq_iff (by decide), toSigned_eq_iff (by decide)]
  rcases (validDataSize_iff n).mp h with rfl | rfl | rfl | rfl <;> norm_num at hvalue ⊢ <;> omega

/-- A number of the member's type is stored as it is. -/
theorem storeSigned_holds (h : validDataSize field.dataSize = true) {value : Int}
    (hvalue : toSigned field.dataSize value = value) (dest : Int) (s : IStream) :
    storeSigned field dest value s = ((true, value), s) := by
  rw [storeSigned, if_pos h]
  simp only [hvalue, ne_eq, not_true_eq_false, if_false]

/-! ## Zigzag -/

/-- The code's way to zigzag, on the numbers of 64 bits. -/
theorem zigzagged_toNat {value : Int} (h : toSigned 8 value = value) :
    (if value < 0 then ~~~(UInt64.ofInt value <<< 1) else UInt64.ofInt value <<< 1).toNat
      = zigzag value := by
  rw [toSigned_eq_iff (by decide)] at h
  have hval := toNat_ofInt value
  have hshift : (UInt64.ofInt value <<< 1).toNat = (UInt64.ofInt value).toNat * 2 % 2 ^ 64 := by
    rw [UInt64.toNat_shiftLeft, Nat.shiftLeft_eq]
    rfl
  have hnot : (~~~(UInt64.ofInt value <<< 1)).toNat
      = 2 ^ 64 - 1 - (UInt64.ofInt value <<< 1).toNat := by
    rw [UInt64.toNat_not]
    rfl
  unfold zigzag
  split_ifs with hneg
  · rw [hnot, hshift]
    omega
  · rw [hshift]
    omega

/-- The code's way back. -/
theorem unzigzag_zigzag {value : Int} (h : toSigned 8 value = value) {v : UInt64}
    (hv : v.toNat = zigzag value) :
    (if v &&& 1 ≠ 0 then toSigned 8 (~~~(v >>> 1)).toNat else toSigned 8 (v >>> 1).toNat) = value := by
  have hlow : (v &&& 1).toNat = v.toNat % 2 := by
    rw [UInt64.toNat_and]
    exact Nat.and_two_pow_sub_one_eq_mod v.toNat 1
  have hzero : v &&& 1 ≠ 0 ↔ v.toNat % 2 = 1 := by
    rw [ne_eq, ← UInt64.toNat_inj, hlow]
    change ¬ v.toNat % 2 = 0 ↔ _
    omega
  have hshift : (v >>> 1).toNat = v.toNat / 2 := by
    rw [UInt64.toNat_shiftRight]
    exact Nat.shiftRight_eq_div_pow v.toNat 1
  have hnot : (~~~(v >>> 1)).toNat = 2 ^ 64 - 1 - (v >>> 1).toNat := by
    rw [UInt64.toNat_not]
    rfl
  rw [toSigned_eq_iff (by decide)] at h
  simp only [hzero, hnot, hshift]
  unfold zigzag at hv
  unfold toSigned
  rw [Int.bmod_def, Int.bmod_def]
  norm_num at h ⊢
  split_ifs at hv ⊢ <;> omega

/-! ## Fixed sizes -/

theorem toNat_fixedByte (val : UInt64) {i : Nat} (hi : i < 8) :
    ((val >>> UInt64.ofNat (8 * i)) &&& 0xFF).toUInt8.toNat = val.toNat / 256 ^ i % 256 := by
  have hplace : (UInt64.ofNat (8 * i)).toNat % 64 = 8 * i := by
    rw [UInt64.toNat_ofNat', Nat.mod_eq_of_lt (by omega), Nat.mod_eq_of_lt (by omega)]
  have hpow : 2 ^ (8 * i) = 256 ^ i := Nat.pow_mul 2 8 i
  rw [UInt64.toNat_toUInt8, UInt64.toNat_and, UInt64.toNat_shiftRight, hplace,
    Nat.shiftRight_eq_div_pow, hpow]
  have hmask : val.toNat / 256 ^ i &&& (0xFF : UInt64).toNat = val.toNat / 256 ^ i % 256 :=
    Nat.and_two_pow_sub_one_eq_mod _ 8
  rw [hmask, Nat.mod_mod]

/-- The bytes from place `i` on are put back in their places. -/
theorem ofFixedBytes_range' (val : UInt64) : ∀ (n i : Nat), i + n ≤ 8 →
    (ofFixedBytes i ((List.range' i n).map fun j =>
      ((val >>> UInt64.ofNat (8 * j)) &&& 0xFF).toUInt8)).toNat
      = 256 ^ i * (val.toNat / 256 ^ i % 256 ^ n)
  | 0, i, _ => by
    rw [Nat.pow_zero, Nat.mod_one, Nat.mul_zero]
    rfl
  | n + 1, i, hi => by
    have hpow : 256 ^ i = 2 ^ (8 * i) := (Nat.pow_mul 2 8 i).symm
    have hplace : (UInt64.ofNat (8 * i)).toNat % 64 = 8 * i := by
      rw [UInt64.toNat_ofNat', Nat.mod_eq_of_lt (by omega), Nat.mod_eq_of_lt (by omega)]
    have hbyte := toNat_fixedByte val (show i < 8 by omega)
    have hlt : val.toNat / 256 ^ i % 256 < 256 := Nat.mod_lt _ (by decide)
    have hnext : 256 ^ (i + 1) = 2 ^ (8 * (i + 1)) := (Nat.pow_mul 2 8 (i + 1)).symm
    have hroom : 256 ^ i * (val.toNat / 256 ^ i % 256) < 2 ^ (8 * (i + 1)) := by
      rw [← hnext, Nat.pow_succ]
      exact Nat.mul_lt_mul_of_pos_left hlt (Nat.pow_pos (by decide))
    have hbig : 2 ^ (8 * (i + 1)) ≤ 2 ^ 64 := Nat.pow_le_pow_right (by decide) (by omega)
    rw [List.range'_succ, List.map_cons, ofFixedBytes, UInt64.toNat_or,
      ofFixedBytes_range' val n (i + 1) (by omega), UInt64.toNat_shiftLeft, UInt8.toNat_toUInt64, hbyte,
      hplace, Nat.shiftLeft_eq, ← hpow, Nat.mul_comm _ (256 ^ i),
      Nat.mod_eq_of_lt (hroom.trans_le hbig), Nat.or_comm]
    rw [hnext, ← Nat.two_pow_add_eq_or_of_lt hroom, ← hnext, Nat.pow_succ 256 n,
      Nat.mul_comm (256 ^ n) 256, Nat.mod_mul, Nat.div_div_eq_div_mul, ← Nat.pow_succ, Nat.mul_add,
      ← Nat.mul_assoc, ← Nat.pow_succ, Nat.add_comm]

theorem ofFixedBytes_fixedBytes {n : Nat} (hn : n ≤ 8) {val : UInt64} (hval : val.toNat < 256 ^ n) :
    ofFixedBytes 0 (fixedBytes n val) = val := by
  have h := ofFixedBytes_range' val n 0 (by omega)
  rw [Nat.pow_zero, Nat.one_mul, Nat.div_one, Nat.mod_eq_of_lt hval] at h
  rw [← UInt64.toNat_inj, fixedBytes, List.range_eq_range', h]

theorem decodeFixed_reads {n : Nat} (hn : n ≤ 8) {val : UInt64} (hval : val.toNat < 256 ^ n) :
    Reads (decodeFixed n) (fixedBytes n val) (some val) := by
  intro r t e
  have hlen : (fixedBytes n val).length = n := by
    rw [fixedBytes, List.length_map, List.length_range]
  have hread := pbRead_window (fixedBytes n val) r t e
  rw [hlen] at hread
  rw [decodeFixed, hread]
  exact congrArg (fun v => (some v, window r t e)) (ofFixedBytes_fixedBytes hn hval)

/-! ## A number is read back -/

theorem encSigned_emits {encode : Int → OStream → Bool × OStream} {value : Int} {bs : List UInt8}
    (h : validDataSize field.dataSize = true) (hencode : Emits (encode value) bs) :
    Emits (encSigned encode field value) bs := by
  have heq : encSigned encode field value = encode value := by
    funext s
    rw [encSigned, if_pos h]
  rwa [heq]

/-- A number is written as its bytes. -/
theorem encodeScalar_emits {type : ScalarType} {value : Int} (h : type.Holds field value) :
    Emits (encodeScalar type field value) (scalarBytes type value) := by
  unfold encodeScalar scalarBytes
  unfold ScalarType.Holds at h
  cases type with
  | varint => exact encSigned_emits h.1 (pbEncodeVarint_emits _)
  | uvarint =>
    have heq : pbEncUvarint field (UInt64.ofInt value) = pbEncodeVarint (UInt64.ofInt value) := by
      funext s
      rw [pbEncUvarint, if_pos h.1]
    rw [heq]
    exact pbEncodeVarint_emits _
  | svarint =>
    have hzigzag := zigzagged_toNat (toSigned_of_le h.1 h.2).1
    refine encSigned_emits h.1 ?_
    dsimp only
    rw [← hzigzag]
    exact pbEncodeVarint_emits _
  | fixed32 => exact pbWrite_emits _
  | fixed64 => exact pbWrite_emits _

theorem pbDecodeSvarint_reads {value : Int} (h : toSigned 8 value = value) :
    Reads pbDecodeSvarint (Base128.encode (zigzag value)) (some value) := by
  intro r t e
  have hlt : zigzag value < 2 ^ 64 := by
    rw [← zigzagged_toNat h]
    exact UInt64.toNat_lt _
  have hback := unzigzag_zigzag h (v := UInt64.ofNat (zigzag value))
    (by rw [UInt64.toNat_ofNat', Nat.mod_eq_of_lt hlt])
  rw [pbDecodeSvarint, pbDecodeVarint_encode hlt r t e]
  dsimp only
  split_ifs at hback ⊢ <;> rw [hback]

/-- A number that is not negative is its own two's complement. -/
theorem toNat_ofInt_of_lt {value : Int} (h0 : 0 ≤ value) (h : value < 2 ^ 64) :
    ((UInt64.ofInt value).toNat : Int) = value := by
  rw [toNat_ofInt, Int.emod_eq_of_lt h0 h]

theorem decFixed_reads {n : Nat} (hn : n ≤ 8) {value : Int} (h0 : 0 ≤ value)
    (h : value < 256 ^ n) (dest : Int) :
    Reads (decFixed (decodeFixed n) dest) (fixedBytes n (UInt64.ofInt value)) (true, value) := by
  intro r t e
  have hbig : (256 : Int) ^ n ≤ 256 ^ 8 := pow_le_pow_right₀ (by decide) hn
  have hval := toNat_ofInt_of_lt h0 (h.trans_le hbig)
  have hlt : (UInt64.ofInt value).toNat < 256 ^ n := by
    have : ((UInt64.ofInt value).toNat : Int) < (256 ^ n : Nat) := by
      rw [hval]
      exact_mod_cast h
    exact_mod_cast this
  rw [decFixed, decodeFixed_reads hn hlt r t e]
  dsimp only
  rw [hval]

/-- `pb_dec_uvarint` on a value of the field's size. -/
theorem pbDecUvarint_reads {v : UInt64} (hvalid : validDataSize field.dataSize = true)
    (hv : v.toNat < 256 ^ field.dataSize) (dest : Slot) :
    Reads (pbDecUvarint field dest) (Base128.encode v.toNat) (true, .uint v) := by
  intro r t e
  have hclamp : UInt64.ofNat (v.toNat % 256 ^ field.dataSize) = v := by
    rw [Nat.mod_eq_of_lt hv, UInt64.ofNat_toNat]
  unfold pbDecUvarint
  rw [pbDecodeVarint_encode v.toNat_lt r t e, UInt64.ofNat_toNat]
  simp only [if_pos hvalid, hclamp, ne_eq, not_true_eq_false, if_false]

/-- **A number of each type is read back**, whatever comes behind it. -/
theorem decodeScalar_reads {type : ScalarType} {value : Int} (h : type.Holds field value)
    (dest : Int) : Reads (decodeScalar type field dest) (scalarBytes type value) (true, value) := by
  unfold scalarBytes
  unfold ScalarType.Holds at h
  intro r t e
  cases type with
  | varint =>
    obtain ⟨h8, h4⟩ := toSigned_of_le h.1 h.2
    have hread := pbDecodeVarint_encode (UInt64.ofInt value).toNat_lt r t e
    rw [UInt64.ofNat_toNat] at hread
    have hsvalue : (if field.dataSize = 8 then toSigned 8 (UInt64.ofInt value).toNat
        else toSigned 4 (UInt64.ofInt value).toNat) = value := by
      split_ifs with hsize
      · exact toSigned_toNat_ofInt (Or.inl rfl) h8
      · exact toSigned_toNat_ofInt (Or.inr rfl) (h4 hsize)
    simp only [decodeScalar, pbDecVarint, hread, hsvalue, storeSigned_holds h.1 h.2]
  | uvarint =>
    have hbig : (256 : Int) ^ field.dataSize ≤ 256 ^ 8 :=
      pow_le_pow_right₀ (by decide) (by have := (validDataSize_iff _).mp h.1; omega)
    have hval := toNat_ofInt_of_lt h.2.1 (h.2.2.trans_le hbig)
    have hlt : (UInt64.ofInt value).toNat < 256 ^ field.dataSize := by
      have : ((UInt64.ofInt value).toNat : Int) < (256 ^ field.dataSize : Nat) := by
        rw [hval]
        exact_mod_cast h.2.2
      exact_mod_cast this
    have hread := pbDecUvarint_reads h.1 hlt (.uint (UInt64.ofInt dest)) r t e
    simp only [decodeScalar, hread, Slot.value, hval]
  | svarint =>
    simp only [decodeScalar, pbDecSvarint, pbDecodeSvarint_reads (toSigned_of_le h.1 h.2).1 r t e,
      storeSigned_holds h.1 h.2]
  | fixed32 => exact decFixed_reads (n := 4) (by decide) h.1 h.2 dest r t e
  | fixed64 => exact decFixed_reads (n := 8) (by decide) h.1 h.2 dest r t e

/-- **A signed member of four bytes takes every varint** and keeps its low 32 bits; an unsigned one
rejects what is too large for it. -/
theorem pbDecVarint_cut (hsize : field.dataSize = 4) {u : List UInt8} (hu : Base128.IsVarint u)
    (hlen : u.length ≤ 10) (dest : Int) (slot : Slot) (r t : List UInt8) (e : Option String) :
    pbDecVarint field dest (window (u ++ r) t e)
        = ((true, toSigned 4 (Base128.value u)), window r t e) ∧
      ((pbDecUvarint field slot (window (u ++ r) t e)).1.1 = true ↔
        Base128.value u % 2 ^ 64 < 2 ^ 32) := by
  have hread := pbDecodeVarint_reads hu hlen r t e
  have hvalid : validDataSize field.dataSize = true := by
    rw [hsize]
    rfl
  have hval : (UInt64.ofNat (Base128.value u)).toNat = Base128.value u % 2 ^ 64 :=
    UInt64.toNat_ofNat'
  constructor
  · have hcut : toSigned 4 (UInt64.ofNat (Base128.value u)).toNat = toSigned 4 (Base128.value u) := by
      have hpow : 256 ^ 4 = 4294967296 := rfl
      rw [hval]
      unfold toSigned
      rw [Int.bmod_def, Int.bmod_def, hpow]
      split_ifs <;> omega
    have hidem : toSigned field.dataSize (toSigned 4 (Base128.value u))
        = toSigned 4 (Base128.value u) := by
      rw [hsize]
      exact Int.bmod_bmod
    have hnot : field.dataSize ≠ 8 := by omega
    rw [pbDecVarint, hread]
    dsimp only
    rw [if_neg hnot, hcut]
    exact storeSigned_holds hvalid hidem dest (window r t e)
  · have hclamp : UInt64.ofNat (Base128.value u % 2 ^ 64 % 256 ^ 4) = UInt64.ofNat (Base128.value u) ↔
        Base128.value u % 2 ^ 64 < 2 ^ 32 := by
      rw [← UInt64.toNat_inj, UInt64.toNat_ofNat', UInt64.toNat_ofNat']
      omega
    rw [pbDecUvarint, hread]
    dsimp only
    rw [if_pos hvalid, hval, hsize, ← hclamp]
    split_ifs with hne
    · exact iff_of_false (by simp) hne
    · exact iff_of_true rfl (not_not.mp hne)

end EmbeddedTestbench.Nanopb
