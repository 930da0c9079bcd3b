import Mathlib.Data.List.Basic
import Mathlib.Tactic.Ring

/-!
# Base-128 varints

A varint is a byte string whose every byte but the last has its top bit set; the low seven bits
of the bytes are the digits of the value, least significant first. The format does not ask for
the shortest form: `IsVarint` holds of a value padded with `0x80 … 0x00` as well, and `encode`
writes the shortest one.

Headlines:
* **`isVarint_encode`**, **`value_encode`**: `encode v` is a varint of value `v`.
* `encode_length_le`: it has at most `k` bytes when `v < 128 ^ k`.
-/

namespace EmbeddedTestbench.Lib.Base128

/-- One varint: the top bit is set on every byte but the last. -/
def IsVarint : List UInt8 → Prop
  | [] => False
  | b :: bs => if b.toNat < 128 then bs = [] else IsVarint bs

/-- The number a varint's digits spell. -/
def value : List UInt8 → Nat
  | [] => 0
  | b :: bs => b.toNat % 128 + 128 * value bs

/-- The shortest varint of `v`. -/
def encode (v : Nat) : List UInt8 :=
  if v < 128 then [UInt8.ofNat v] else UInt8.ofNat (v % 128 + 128) :: encode (v / 128)
termination_by v

instance decIsVarint : DecidablePred IsVarint
  | [] => isFalse id
  | b :: bs =>
    have := decIsVarint bs
    inferInstanceAs (Decidable (if b.toNat < 128 then bs = [] else IsVarint bs))

/-! ## Shape -/

theorem isVarint_last {b : UInt8} (h : b.toNat < 128) : IsVarint [b] := by
  rw [IsVarint, if_pos h]

theorem isVarint_cons {b : UInt8} {bs : List UInt8} (h : 128 ≤ b.toNat) :
    IsVarint (b :: bs) ↔ IsVarint bs := by
  rw [IsVarint, if_neg (by omega)]

theorem isVarint_small {b : UInt8} {bs : List UInt8} (h : b.toNat < 128) :
    IsVarint (b :: bs) ↔ bs = [] := by
  rw [IsVarint, if_pos h]

theorem IsVarint.ne_nil {u : List UInt8} (h : IsVarint u) : u ≠ [] := by
  rintro rfl
  exact h

/-- A byte string either starts with one varint or has the top bit set throughout. -/
theorem split_or_all_more : ∀ w : List UInt8,
    (∃ u r, w = u ++ r ∧ IsVarint u) ∨ ∀ b ∈ w, 128 ≤ b.toNat
  | [] => Or.inr fun _ h => absurd h List.not_mem_nil
  | b :: bs => by
    by_cases hb : b.toNat < 128
    · exact Or.inl ⟨[b], bs, rfl, isVarint_last hb⟩
    · rcases split_or_all_more bs with ⟨u, r, rfl, hu⟩ | h
      · exact Or.inl ⟨b :: u, r, rfl, (isVarint_cons (by omega)).mpr hu⟩
      · refine Or.inr fun x hx => ?_
        rcases List.mem_cons.mp hx with rfl | hx
        · omega
        · exact h x hx

/-! ## The shortest varint -/

theorem encode_lt {v : Nat} (h : v < 128) : encode v = [UInt8.ofNat v] := by
  rw [encode, if_pos h]

theorem encode_ge {v : Nat} (h : 128 ≤ v) :
    encode v = UInt8.ofNat (v % 128 + 128) :: encode (v / 128) := by
  rw [encode, if_neg (by omega)]

theorem toNat_ofNat_small {n : Nat} (h : n < 256) : (UInt8.ofNat n).toNat = n := by
  rw [UInt8.toNat_ofNat', Nat.mod_eq_of_lt h]

/-- **`encode` writes a varint.** -/
theorem isVarint_encode (v : Nat) : IsVarint (encode v) := by
  induction v using Nat.strongRecOn with
  | ind v ih =>
    by_cases h : v < 128
    · rw [encode_lt h]
      exact isVarint_last (by rw [toNat_ofNat_small (by omega)]; exact h)
    · rw [encode_ge (by omega), isVarint_cons (by rw [toNat_ofNat_small] <;> omega)]
      exact ih _ (by omega)

/-- **`encode` writes `v`.** -/
theorem value_encode (v : Nat) : value (encode v) = v := by
  induction v using Nat.strongRecOn with
  | ind v ih =>
    by_cases h : v < 128
    · have hbyte : v < 256 := by omega
      rw [encode_lt h]
      simp only [value, toNat_ofNat_small hbyte]
      omega
    · have hbyte : v % 128 + 128 < 256 := by omega
      rw [encode_ge (by omega)]
      simp only [value, ih (v / 128) (by omega), toNat_ofNat_small hbyte]
      omega

/-- Only zero has a zero byte. -/
theorem zero_mem_encode_iff (v : Nat) : 0 ∈ encode v ↔ v = 0 := by
  induction v using Nat.strongRecOn with
  | ind v ih =>
    by_cases h : v < 128
    · rw [encode_lt h, List.mem_singleton, ← UInt8.toNat_inj, toNat_ofNat_small (by omega)]
      exact eq_comm
    · have hfirst : (0 : UInt8) ≠ UInt8.ofNat (v % 128 + 128) := by
        rw [ne_eq, ← UInt8.toNat_inj, toNat_ofNat_small (by omega)]
        exact (Nat.succ_ne_zero _).symm
      rw [encode_ge (by omega), List.mem_cons, ih _ (by omega)]
      constructor
      · rintro (hzero | hzero)
        · exact absurd hzero hfirst
        · omega
      · intro hzero
        omega

theorem encode_length_le : ∀ (k v : Nat), v < 128 ^ (k + 1) → (encode v).length ≤ k + 1
  | 0, v, h => by
    rw [encode_lt (by omega)]
    exact le_refl _
  | k + 1, v, h => by
    by_cases hv : v < 128
    · rw [encode_lt hv]
      simp
    · have hdiv : v / 128 < 128 ^ (k + 1) := by
        rw [Nat.div_lt_iff_lt_mul (by decide)]
        calc v < 128 ^ (k + 1 + 1) := h
          _ = 128 ^ (k + 1) * 128 := by ring
      rw [encode_ge (by omega), List.length_cons]
      have := encode_length_le k (v / 128) hdiv
      omega

end EmbeddedTestbench.Lib.Base128
