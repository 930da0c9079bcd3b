import Mathlib.Logic.Relation
import EmbeddedTestbench.ProtoBuff.Unmarshal

/-!
# The walk over the fields of a message

`decode_unionmessage_type` as a walk over byte strings. `Turn w r` is one turn that does not find
a union field: it starts with the bytes `w` left and goes on with `r`, and since the result of
`pb_skip_field` is not looked at, a turn over a broken field counts as well. `UnionAt` is where
the walk ends.

Headlines:
* **`skip_iff`**: `pb_skip_field` succeeds on exactly the complete payloads of the wire grammar.
* **`decodeUnionmessageType_walk`**, **`decodeUnionmessageType_of_walk`**: the code finds a type
  exactly where the walk ends.
* **`decodeUnionmessageType_fields`**: complete foreign fields in front change nothing.
-/

namespace EmbeddedTestbench.ProtoBuff

open Nanopb IStream EmbeddedTestbench.Lib

/-! ## Keys and payloads -/

/-- The bytes that `pb_decode_varint32` accepts, with the value it gives them. -/
def Accepts : Wire.NumRel := fun l n => ∃ v : UInt32, Reads pbDecodeVarint32 l (some v) ∧ v.toNat = n

/-- A key that is accepted and is not zero. -/
def IsKey (k : List UInt8) (wireType tag : Nat) : Prop :=
  Accepts k (8 * tag + wireType) ∧ 8 * tag + wireType ≠ 0 ∧ wireType < 8

/-- Not the key of a union field. -/
def Foreign (wireType tag : Nat) : Prop := ¬ (wireType = 2 ∧ (tag = 1 ∨ tag = 2 ∨ tag = 3))

instance (wireType tag : Nat) : Decidable (Foreign wireType tag) :=
  inferInstanceAs (Decidable (¬ (wireType = 2 ∧ (tag = 1 ∨ tag = 2 ∨ tag = 3))))

theorem accepts_of_varint32 {l : List UInt8} {n : Nat} (h : Wire.Varint32 l n) : Accepts l n := by
  obtain ⟨⟨hl, rfl⟩, hn⟩ := h
  exact ⟨_, pbDecodeVarint32_reads hl hn, by rw [UInt32.toNat_ofNat', Nat.mod_eq_of_lt hn]⟩

theorem isKey_of_varint32 {k : List UInt8} {wireType tag : Nat}
    (h : Wire.Varint32 k (8 * tag + wireType) ∧ 8 * tag + wireType ≠ 0 ∧ wireType < 8) :
    IsKey k wireType tag :=
  ⟨accepts_of_varint32 h.1, h.2⟩

theorem reads_eof_of_reads {l : List UInt8} {v : UInt32} (h : Reads pbDecodeVarint32 l (some v)) :
    Reads pbDecodeVarint32Eof l (.ok v) := by
  intro r t e
  have hr := h r t e
  unfold pbDecodeVarint32 at hr
  cases hd : pbDecodeVarint32Eof (window (l ++ r) t e) with
  | mk a s =>
    rw [hd] at hr
    cases a with
    | ok v' =>
      simp only [Except.toOption, Prod.mk.injEq, Option.some.injEq] at hr
      rw [hr.1, hr.2]
    | error eof =>
      exact absurd (Prod.mk.inj hr).1 (by simp [Except.toOption])

theorem reads_of_reads_eof {l : List UInt8} {v : UInt32} (h : Reads pbDecodeVarint32Eof l (.ok v)) :
    Reads pbDecodeVarint32 l (some v) := by
  intro r t e
  unfold pbDecodeVarint32
  rw [h r t e]
  rfl

/-- `pb_decode_tag` reads a key. -/
theorem IsKey.reads {k : List UInt8} {wireType tag : Nat} (h : IsKey k wireType tag) :
    Reads pbDecodeTag k (.field wireType tag) := by
  obtain ⟨⟨v, hv, hval⟩, hne, hlt⟩ := h
  have := pbDecodeTag_reads_key (reads_eof_of_reads hv) (by
    rintro rfl
    exact hne hval.symm)
  obtain ⟨hmod, hdiv⟩ := key_parts hlt tag
  rwa [hval, hmod, hdiv] at this

/-- What `pb_decode_tag` reads is a key. -/
theorem isKey_of_tag {w t : List UInt8} {e : Option String} {wireType tag : Nat} {s : IStream}
    (h : pbDecodeTag (window w t e) = (.field wireType tag, s)) :
    ∃ k x, w = k ++ x ∧ s = window x t e ∧ IsKey k wireType tag := by
  obtain ⟨k, x, key, rfl, rfl, hk, hk0, rfl, rfl⟩ := pbDecodeTag_field h
  have hval : 8 * (key.toNat / 8) + key.toNat % 8 = key.toNat := by omega
  refine ⟨k, x, rfl, rfl, ⟨key, reads_of_reads_eof hk, hval.symm⟩, fun h0 => hk0 ?_, by omega⟩
  rw [← UInt32.toNat_inj, ← hval, h0]
  rfl

/-- A key that starts a byte string is the only one that does. -/
theorem IsKey.unique {k k' x x' : List UInt8} {wireType wireType' tag tag' : Nat}
    (h : IsKey k wireType tag) (h' : IsKey k' wireType' tag') (e : k ++ x = k' ++ x') :
    k = k' ∧ x = x' ∧ wireType = wireType' ∧ tag = tag' := by
  obtain ⟨hk, hx, ht⟩ := h.reads.unique h'.reads e
  obtain ⟨hw, ht⟩ := TagRead.field.inj ht
  exact ⟨hk, hx, hw, ht⟩

theorem IsKey.ne_nil {k : List UInt8} {wireType tag : Nat} (h : IsKey k wireType tag) : k ≠ [] :=
  reads_tag_ne_nil h.reads

/-- `pb_skip_field` takes a complete payload. -/
theorem skip_reads {wireType : Nat} {p : List UInt8} (h : Wire.Payload Accepts wireType p) :
    Reads (fun s => pbSkipField s wireType) p true := by
  cases h with
  | varint h => exact pbSkipVarint_reads h
  | fixed64 h =>
    have := pbSkip_reads p
    rwa [h] at this
  | @bytes l p h =>
    obtain ⟨v, hv, hval⟩ := h
    have hread : Reads pbSkipString (l ++ p) true := by
      rw [pbSkipString_eq]
      refine hv.andThen ?_
      rw [hval]
      exact pbSkip_reads p
    exact hread
  | fixed32 h =>
    have := pbSkip_reads p
    rwa [h] at this

/-- A read of `n` bytes that succeeds has them. -/
theorem pbSkip_true {n : Nat} {x t : List UInt8} {e : Option String} {s : IStream}
    (h : pbSkip (window x t e) n = (true, s)) :
    ∃ p r, x = p ++ r ∧ p.length = n := by
  by_cases hle : n ≤ x.length
  · exact ⟨x.take n, x.drop n, (List.take_append_drop n x).symm, List.length_take_of_le hle⟩
  · rw [pbSkip, pbRead_short (by omega)] at h
    exact absurd (Prod.mk.inj h).1 (by simp)

/-- What `pb_skip_field` takes is a complete payload. -/
theorem payload_of_skip {wireType : Nat} {x t : List UInt8} {e : Option String} {s : IStream}
    (h : pbSkipField (window x t e) wireType = (true, s)) :
    ∃ p r, x = p ++ r ∧ Wire.Payload Accepts wireType p := by
  unfold pbSkipField wtVarint wt64bit wtString wt32bit at h
  split_ifs at h with h0 h1 h2 h5
  · subst h0
    rcases Base128.split_or_all_more x with ⟨p, r, rfl, hp⟩ | hall
    · exact ⟨p, r, rfl, .varint hp⟩
    · rw [pbSkipVarint_all_more hall] at h
      exact absurd (Prod.mk.inj h).1 (by simp)
  · subst h1
    obtain ⟨p, r, rfl, hp⟩ := pbSkip_true h
    exact ⟨p, r, rfl, .fixed64 hp⟩
  · subst h2
    rw [pbSkipString_eq, andThen] at h
    cases hd : pbDecodeVarint32 (window x t e) with
    | mk a s' =>
      rw [hd] at h
      cases a with
      | none => exact absurd (Prod.mk.inj h).1 (by simp)
      | some v =>
        obtain ⟨l, y, rfl, rfl, hl⟩ := pbDecodeVarint32_prefixReader.reads_of_ok hd rfl
        obtain ⟨p, r, rfl, hp⟩ := pbSkip_true h
        exact ⟨l ++ p, r, by rw [List.append_assoc], .bytes ⟨v, hl, hp.symm⟩⟩
  · subst h5
    obtain ⟨p, r, rfl, hp⟩ := pbSkip_true h
    exact ⟨p, r, rfl, .fixed32 hp⟩
  · exact absurd (Prod.mk.inj h).1 (by simp)

/-- **`pb_skip_field` succeeds on exactly the complete payloads.** -/
theorem skip_iff (wireType : Nat) (x t : List UInt8) (e : Option String) :
    (pbSkipField (window x t e) wireType).1 = true ↔
      ∃ p r, x = p ++ r ∧ Wire.Payload Accepts wireType p := by
  constructor
  · intro h
    exact payload_of_skip (Prod.ext h rfl)
  · rintro ⟨p, r, rfl, hp⟩
    exact congrArg Prod.fst (skip_reads hp r t e)

/-! ## Turns -/

/-- The bytes that are left where `pb_skip_field` stopped, whether it succeeded or failed. -/
def leftover (wireType : Nat) (x : List UInt8) : List UInt8 :=
  (pbSkipField (window x [] none) wireType).2.state

/-- The skip stops at the same place, whatever is behind the window. -/
theorem skip_leftover (wireType : Nat) (x t : List UInt8) (e : Option String) :
    ∃ e', (pbSkipField (window x t e) wireType).2 = window (leftover wireType x) t e' := by
  obtain ⟨u, r, a, rfl, ⟨-, hr⟩ | ⟨-, msg, hf⟩⟩ := pbSkipField_prefixReader wireType x
  · have hleft : leftover wireType (u ++ r) = r := by
      have := congrArg Prod.snd (hr r [] none)
      simp only at this
      rw [leftover, this, window_state, List.append_nil]
    exact ⟨e, by rw [hleft]; exact congrArg Prod.snd (hr r t e)⟩
  · have hleft : leftover wireType (u ++ r) = r := by
      have := congrArg Prod.snd (hf [] none)
      simp only at this
      rw [leftover, this, window_state, List.append_nil]
    exact ⟨e.or msg, by rw [hleft]; exact congrArg Prod.snd (hf t e)⟩

theorem leftover_of_payload {wireType : Nat} {p : List UInt8} (h : Wire.Payload Accepts wireType p)
    (r : List UInt8) : leftover wireType (p ++ r) = r := by
  have := congrArg Prod.snd (skip_reads h r [] none)
  simp only at this
  rw [leftover, this, window_state, List.append_nil]

theorem leftover_length_le (wireType : Nat) (x : List UInt8) :
    (leftover wireType x).length ≤ x.length := by
  obtain ⟨u, r, e', rfl, h⟩ := skip_window x [] none wireType
  rw [leftover, h, window_state, List.append_nil, List.length_append]
  omega

/-- One turn of the walk that finds no union field. -/
def Turn (w r : List UInt8) : Prop :=
  ∃ k x wireType tag, w = k ++ x ∧ IsKey k wireType tag ∧ Foreign wireType tag ∧
    r = leftover wireType x

/-- Any number of turns. -/
abbrev WalkTo : List UInt8 → List UInt8 → Prop := Relation.ReflTransGen Turn

/-- A union field: its type, and the bytes behind its key. -/
def UnionAt (w : List UInt8) (type : FieldsAddr) (x : List UInt8) : Prop :=
  ∃ k tag, w = k ++ x ∧ IsKey k 2 tag ∧ UnionType tag type

theorem UnionType.not_foreign {tag : Nat} {type : FieldsAddr} (h : UnionType tag type) :
    ¬ Foreign 2 tag := by
  cases h <;> exact fun h => h ⟨rfl, by decide⟩

theorem UnionType.unique {tag : Nat} {type type' : FieldsAddr} (h : UnionType tag type)
    (h' : UnionType tag type') : type = type' := by
  cases h <;> cases h' <;> rfl

/-- The walk does not go past a union field. -/
theorem UnionAt.not_turn {w x r : List UInt8} {type : FieldsAddr} (h : UnionAt w type x) :
    ¬ Turn w r := by
  obtain ⟨k, tag, rfl, hk, ht⟩ := h
  rintro ⟨k', x', wireType, tag', heq, hk', hforeign, -⟩
  obtain ⟨-, -, rfl, rfl⟩ := hk.unique hk' heq
  exact ht.not_foreign hforeign

/-- A turn is determined by where it starts. -/
theorem Turn.unique {w r r' : List UInt8} (h : Turn w r) (h' : Turn w r') : r = r' := by
  obtain ⟨k, x, wireType, tag, rfl, hk, -, rfl⟩ := h
  obtain ⟨k', x', wireType', tag', heq, hk', -, rfl⟩ := h'
  obtain ⟨-, rfl, rfl, -⟩ := hk.unique hk' heq
  rfl

theorem Turn.length_lt {w r : List UInt8} (h : Turn w r) : r.length < w.length := by
  obtain ⟨k, x, wireType, tag, rfl, hk, -, rfl⟩ := h
  have hpos := List.length_pos_of_ne_nil hk.ne_nil
  have hle := leftover_length_le wireType x
  rw [List.length_append]
  omega

/-! ## The code walks -/

/-- The code makes a turn. -/
theorem decodeUnionmessageType_turn {w r : List UInt8} (h : Turn w r) (t : List UInt8)
    (e : Option String) :
    ∃ e', decodeUnionmessageType (window w t e) = decodeUnionmessageType (window r t e') := by
  obtain ⟨k, x, wireType, tag, rfl, hk, hforeign, rfl⟩ := h
  obtain ⟨e', hskip⟩ := skip_leftover wireType x t e
  refine ⟨e', ?_⟩
  rw [decodeUnionmessageType_eq, hk.reads x t e]
  simp only [unionPtr_eq_none.mpr hforeign, hskip]

/-- The code finds a union field. -/
theorem decodeUnionmessageType_union {w x : List UInt8} {type : FieldsAddr} (h : UnionAt w type x)
    (t : List UInt8) (e : Option String) :
    decodeUnionmessageType (window w t e) = (some type, window x t e) := by
  obtain ⟨k, tag, rfl, hk, ht⟩ := h
  rw [decodeUnionmessageType_eq, hk.reads x t e]
  simp only [unionPtr_eq_some.mpr ⟨rfl, type, rfl, ht⟩]

/-- **Where the walk ends at a union field, the code finds it.** -/
theorem decodeUnionmessageType_of_walk {w w' x t : List UInt8} {type : FieldsAddr}
    (h : WalkTo w w') (hu : UnionAt w' type x) (e : Option String) :
    ∃ e', decodeUnionmessageType (window w t e) = (some type, window x t e') := by
  induction h using Relation.ReflTransGen.head_induction_on generalizing e with
  | refl => exact ⟨e, decodeUnionmessageType_union hu t e⟩
  | head hturn _ ih =>
    obtain ⟨e', heq⟩ := decodeUnionmessageType_turn hturn t e
    rw [heq]
    exact ih e'

/-- **Where the code finds a type, the walk ends at a union field**; otherwise it finds `NULL`. -/
theorem decodeUnionmessageType_walk (w t : List UInt8) (e : Option String) :
    (∃ w' type x e', WalkTo w w' ∧ UnionAt w' type x ∧
      decodeUnionmessageType (window w t e) = (some type, window x t e')) ∨
    (decodeUnionmessageType (window w t e)).1 = none := by
  induction hn : w.length using Nat.strongRecOn generalizing w e with
  | ind n ih =>
    cases htag : pbDecodeTag (window w t e) with
    | mk a s =>
      cases a with
      | stop eof =>
        refine Or.inr ?_
        rw [decodeUnionmessageType_eq, htag]
      | field wireType tag =>
        obtain ⟨k, x, hw, -, hk⟩ := isKey_of_tag htag
        by_cases hforeign : Foreign wireType tag
        · have hturn : Turn w (leftover wireType x) := ⟨k, x, wireType, tag, hw, hk, hforeign, rfl⟩
          obtain ⟨e', heq⟩ := decodeUnionmessageType_turn hturn t e
          rw [heq]
          rcases ih _ (hn ▸ hturn.length_lt) (leftover wireType x) e' rfl with
            ⟨w', type, x', e'', hwalk, hu, hrun⟩ | hnone
          · exact Or.inl ⟨w', type, x', e'', hwalk.head hturn, hu, hrun⟩
          · exact Or.inr hnone
        · obtain ⟨rfl, htag'⟩ := not_not.mp hforeign
          obtain ⟨type, ht⟩ : ∃ type, UnionType tag type := by
            rcases htag' with rfl | rfl | rfl
            · exact ⟨_, .deviceDescriptor⟩
            · exact ⟨_, .hidReport⟩
            · exact ⟨_, .inputReport⟩
          have hu : UnionAt w type x := ⟨k, tag, hw, hk, ht⟩
          exact Or.inl ⟨w, type, x, e, .refl, hu, decodeUnionmessageType_union hu t e⟩

/-! ## Complete fields -/

theorem isKey_of_field {wireType tag : Nat} {f : List UInt8}
    (hf : Wire.Field Accepts Accepts wireType tag f) :
    ∃ k p, f = k ++ p ∧ IsKey k wireType tag ∧ Wire.Payload Accepts wireType p := by
  obtain ⟨⟨k, p, rfl, hk, hp⟩, hne⟩ := hf
  exact ⟨k, p, rfl, ⟨hk, hne, hp.wireType_lt⟩, hp⟩

/-- A complete foreign field is a turn. -/
theorem turn_of_field {wireType tag : Nat} {f : List UInt8}
    (hf : Wire.Field Accepts Accepts wireType tag f) (hforeign : Foreign wireType tag)
    (r : List UInt8) : Turn (f ++ r) r := by
  obtain ⟨k, p, rfl, hk, hp⟩ := isKey_of_field hf
  exact ⟨k, p ++ r, wireType, tag, List.append_assoc _ _ _, hk, hforeign,
    (leftover_of_payload hp r).symm⟩

/-- The walk goes over complete foreign fields. -/
theorem walkTo_of_fields {u : List UInt8} (hu : Wire.Fields Accepts Accepts Foreign u)
    (r : List UInt8) : WalkTo (u ++ r) r := by
  induction hu with
  | nil => exact .refl
  | cons hf ha _ ih =>
    rw [List.append_assoc]
    exact ih.head (turn_of_field hf ha _)

/-- **Complete foreign fields in front change nothing.** -/
theorem decodeUnionmessageType_fields {u w x : List UInt8} {type : FieldsAddr}
    (hu : Wire.Fields Accepts Accepts Foreign u) (hw : UnionAt w type x) (t : List UInt8)
    (e : Option String) :
    ∃ e', decodeUnionmessageType (window (u ++ w) t e) = (some type, window x t e') :=
  decodeUnionmessageType_of_walk (walkTo_of_fields hu w) hw e

end EmbeddedTestbench.ProtoBuff
