import EmbeddedTestbench.Lib.Base128

/-!
# The wire grammar of a message

A message is a sequence of fields, and a field a key with its payload. What counts as a number is
a parameter `Num`, a relation between bytes and values: a grammar may take the shortest varints
only, any padded varint, or whatever a given decoder accepts. `Key` and `Len` are the relations for
keys and for length prefixes.

Headlines:
* **`Payload.mono`**, **`Fields.mono`**: a wider notion of number gives a wider grammar.
* `Payload.mono_of_length`: in a short string of bytes every length prefix is small.
-/

namespace EmbeddedTestbench.Lib.Wire

/-- Which bytes spell which number. -/
abbrev NumRel := List UInt8 → Nat → Prop

/-- The varints, padded ones included. -/
def AnyVarint : NumRel := fun l n => Base128.IsVarint l ∧ Base128.value l = n

/-- The varints of numbers below `2 ^ 32`. -/
def Varint32 : NumRel := fun l n => AnyVarint l n ∧ n < 2 ^ 32

instance (l : List UInt8) (n : Nat) : Decidable (AnyVarint l n) :=
  inferInstanceAs (Decidable (Base128.IsVarint l ∧ Base128.value l = n))

instance (l : List UInt8) (n : Nat) : Decidable (Varint32 l n) :=
  inferInstanceAs (Decidable (AnyVarint l n ∧ n < 2 ^ 32))

/-- A complete payload of a wire type. -/
inductive Payload (Len : NumRel) : Nat → List UInt8 → Prop where
  | varint {p : List UInt8} : Base128.IsVarint p → Payload Len 0 p
  | fixed64 {p : List UInt8} : p.length = 8 → Payload Len 1 p
  | bytes {l p : List UInt8} : Len l p.length → Payload Len 2 (l ++ p)
  | fixed32 {p : List UInt8} : p.length = 4 → Payload Len 5 p

/-- A complete field: its key `8 * tag + wireType` is not zero. -/
structure Field (Key Len : NumRel) (wireType tag : Nat) (f : List UInt8) : Prop where
  split : ∃ k p, f = k ++ p ∧ Key k (8 * tag + wireType) ∧ Payload Len wireType p
  key_ne : 8 * tag + wireType ≠ 0

/-- A sequence of complete fields that are all in `allowed`. -/
inductive Fields (Key Len : NumRel) (allowed : Nat → Nat → Prop) : List UInt8 → Prop where
  | nil : Fields Key Len allowed []
  | cons {wireType tag : Nat} {f u : List UInt8} : Field Key Len wireType tag f →
      allowed wireType tag → Fields Key Len allowed u → Fields Key Len allowed (f ++ u)

variable {Key Key' Len Len' : NumRel} {allowed allowed' : Nat → Nat → Prop}

theorem Payload.wireType_lt {wireType : Nat} {p : List UInt8} (h : Payload Len wireType p) :
    wireType < 8 := by
  cases h <;> decide

theorem Payload.mono (hlen : ∀ l n, Len l n → Len' l n) {wireType : Nat} {p : List UInt8}
    (h : Payload Len wireType p) : Payload Len' wireType p := by
  cases h with
  | varint h => exact .varint h
  | fixed64 h => exact .fixed64 h
  | bytes h => exact .bytes (hlen _ _ h)
  | fixed32 h => exact .fixed32 h

theorem Fields.mono (hkey : ∀ k n, Key k n → Key' k n) (hlen : ∀ l n, Len l n → Len' l n)
    (hallowed : ∀ wireType tag, allowed wireType tag → allowed' wireType tag) {u : List UInt8}
    (h : Fields Key Len allowed u) : Fields Key' Len' allowed' u := by
  induction h with
  | nil => exact .nil
  | cons hf ha _ ih =>
    obtain ⟨⟨k, p, rfl, hk, hp⟩, hne⟩ := hf
    exact .cons ⟨⟨k, p, rfl, hkey _ _ hk, hp.mono hlen⟩, hne⟩ (hallowed _ _ ha) ih

theorem Field.single {wireType tag : Nat} {f : List UInt8} (hf : Field Key Len wireType tag f)
    (ha : allowed wireType tag) : Fields Key Len allowed f := by
  have := Fields.cons hf ha .nil
  rwa [List.append_nil] at this

/-- A length prefix is below the length of what it is a part of. -/
theorem Payload.mono_of_length {wireType : Nat} {p : List UInt8}
    (h : Payload AnyVarint wireType p) (hlen : p.length < 2 ^ 32) :
    Payload Varint32 wireType p := by
  cases h with
  | varint h => exact .varint h
  | fixed64 h => exact .fixed64 h
  | bytes h =>
    rw [List.length_append] at hlen
    exact .bytes ⟨h, by omega⟩
  | fixed32 h => exact .fixed32 h

/-- In less than `2 ^ 32` bytes every length prefix is below `2 ^ 32`. -/
theorem Fields.mono_of_length {u : List UInt8} (h : Fields Varint32 AnyVarint allowed u)
    (hlen : u.length < 2 ^ 32) : Fields Varint32 Varint32 allowed u := by
  induction h with
  | nil => exact .nil
  | cons hf ha _ ih =>
    obtain ⟨⟨k, p, rfl, hk, hp⟩, hne⟩ := hf
    simp only [List.length_append] at hlen
    exact .cons ⟨⟨k, p, rfl, hk, hp.mono_of_length (by omega)⟩, hne⟩ ha (ih (by omega))

end EmbeddedTestbench.Lib.Wire
