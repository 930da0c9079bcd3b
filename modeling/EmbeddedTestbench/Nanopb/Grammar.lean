import EmbeddedTestbench.Nanopb.Containment
import EmbeddedTestbench.Nanopb.Required

/-!
# What `pb_decode` accepts (`pb_decode.c`)

A message on the wire is records one after the other, each a key and a payload, up to the end of the
window or a key that is zero. A record with a tag of the table is a member that is written; the
payload is read as the table says, whatever the wire type in the key. A record with another tag is
skipped as its wire type says. Only the tag zero in a message without fields is neither: there the
search for it stops at the terminator of the table, which cannot be decoded. `IsMessage` says which
struct the bytes make of which, without streams, iterators, bitmaps and fuel.

Headlines:
* **`decodeLoop_iff`**: the loop of `pb_decode_noinit` accepts the messages and nothing else, and
  leaves the struct that they make.
* **`pbDecode_iff`**: so does `pb_decode`, from a struct of defaults.
-/

namespace EmbeddedTestbench.Nanopb

open IStream EmbeddedTestbench.Lib

variable {P : Type}

/-! ## Messages on the wire -/

/-- A tag that a search does not find: no field has it, and where there is none, it is not zero. -/
def Unlisted (fields : List (PbField P)) (tag : Nat) : Prop :=
  (∀ f ∈ fields, f.tag ≠ tag) ∧ (fields = [] → tag ≠ 0)

/-- What comes behind the last record: nothing, or a zero key and anything. -/
def EndsMessage (z rest : List UInt8) : Prop :=
  z = [] ∧ rest = [] ∨ ∃ k, z = k ++ rest ∧ Reads pbDecodeVarint32Eof k (.ok 0)

mutual

/-- The bytes `p` are data of the field, and make `slot'` of the member `slot`. -/
inductive IsData (mem : P → List (PbField P)) : PbField P → Slot → List UInt8 → Slot → Prop where
  | uvarint {field : PbField P} {slot : Slot} {p : List UInt8} {v : UInt64} :
    field.ltype = .uvarint → Reads pbDecodeVarint p (some v) →
    validDataSize field.dataSize = true → v.toNat < 256 ^ field.dataSize →
    IsData mem field slot p (.uint v)
  | string {field : PbField P} {slot : Slot} {u c : List UInt8} {size : UInt32} :
    field.ltype = .string → Reads pbDecodeVarint32 u (some size) → c.length = size.toNat →
    c.length + 1 < 2 ^ 32 → c.length < field.dataSize →
    IsData mem field slot (u ++ c) (.chars ((c ++ slot.bytes.drop c.length).set c.length 0))
  | submessage {field : PbField P} {slot : Slot} {u q rest : List UInt8} {size : UInt32} {ptr : P}
    {members : List Slot} :
    field.ltype = .submessage → field.ptr = some ptr → Reads pbDecodeVarint32 u (some size) →
    q.length = size.toNat → IsMessage mem (mem ptr) slot.members q members rest →
    IsData mem field slot (u ++ q) (.struct members)

/-- The same for the member of a struct: the flag of an optional one is set. -/
inductive IsMember (mem : P → List (PbField P)) : PbField P → Slot → List UInt8 → Slot → Prop where
  | optional {field : PbField P} {has : Bool} {member member' : Slot} {p : List UInt8} :
    field.htype = .optional → IsData mem field member p member' →
    IsMember mem field (.optional has member) p (.optional true member')
  | plain {field : PbField P} {slot slot' : Slot} {p : List UInt8} :
    (field.htype = .optional → slot.htype = .required) → IsData mem field slot p slot' →
    IsMember mem field slot p slot'

/-- Records that make `dest'` of `dest`; `read` are the places of the fields that were read. -/
inductive AreRecords (mem : P → List (PbField P)) :
    List (PbField P) → List Slot → List UInt8 → List Slot → List Nat → Prop where
  | nil {fields : List (PbField P)} {dest : List Slot} : AreRecords mem fields dest [] dest []
  | field {fields : List (PbField P)} {dest dest' : List Slot} {k p q : List UInt8}
    {wireType i : Nat} {f : PbField P} {slot slot' : Slot} {read : List Nat} :
    Reads pbDecodeTag k (.field wireType f.tag) → fields[i]? = some f → dest[i]? = some slot →
    IsMember mem f slot p slot' → AreRecords mem fields (dest.set i slot') q dest' read →
    AreRecords mem fields dest (k ++ (p ++ q)) dest' (i :: read)
  | skipped {fields : List (PbField P)} {dest dest' : List Slot} {k p q : List UInt8}
    {wireType tag : Nat} {read : List Nat} :
    Reads pbDecodeTag k (.field wireType tag) → Unlisted fields tag →
    Reads (fun s => pbSkipField s wireType) p true → AreRecords mem fields dest q dest' read →
    AreRecords mem fields dest (k ++ (p ++ q)) dest' read

/-- Records, all required fields among them, and the end; `rest` is not read. -/
inductive IsMessage (mem : P → List (PbField P)) :
    List (PbField P) → List Slot → List UInt8 → List Slot → List UInt8 → Prop where
  | mk {fields : List (PbField P)} {dest dest' : List Slot} {p z rest : List UInt8}
    {read : List Nat} :
    AreRecords mem fields dest p dest' read → RequiredRead fields read → EndsMessage z rest →
    IsMessage mem fields dest (p ++ z) dest' rest

end

/-! ## Keys -/

/-- A varint that is not the end of the stream is rejected without `eof`. -/
theorem pbDecodeVarint32Eof_error {w t : List UInt8} {e : Option String} {eof : Bool} {s : IStream}
    (hw : w ≠ []) (h : pbDecodeVarint32Eof (window w t e) = (.error eof, s)) : eof = false := by
  obtain ⟨b, w, rfl⟩ := List.exists_cons_of_ne_nil hw
  rw [pbDecodeVarint32Eof_cons] at h
  split_ifs at h
  · exact absurd (Prod.mk.inj h).1 (by simp)
  · rcases hloop : varint32Loop w.length (window w t e) 7 (b &&& 0x7F).toUInt32 with ⟨_ | v, s'⟩
    · rw [hloop] at h
      exact (Except.error.inj (Prod.mk.inj h).1).symm
    · rw [hloop] at h
      exact absurd (Prod.mk.inj h).1 (by simp)

theorem reads_zero_key {k : List UInt8} (h : Reads pbDecodeVarint32Eof k (.ok 0)) :
    Reads pbDecodeTag k (.stop true) := by
  intro r t e
  rw [pbDecodeTag, h r t e]
  rfl

/-- What a window that is not empty begins with: the key of a record, a zero key, or no key. -/
theorem pbDecodeTag_cases {w : List UInt8} (hw : w ≠ []) :
    (∃ k r wireType tag, w = k ++ r ∧ Reads pbDecodeTag k (.field wireType tag)) ∨
    (∃ k r, w = k ++ r ∧ Reads pbDecodeVarint32Eof k (.ok 0)) ∨
    ∃ r, ∃ msg : Option String, ∀ t e,
      pbDecodeTag (window w t e) = (.stop false, window r t (e.or msg)) := by
  obtain ⟨u, r, a, rfl, ⟨ha, hr⟩ | ⟨ha, msg, hf⟩⟩ := pbDecodeVarint32Eof_prefixReader w
  · cases a with
    | error eof => exact absurd ha (by simp [Except.toOption])
    | ok k =>
      by_cases hk : k = 0
      · subst hk
        exact Or.inr (Or.inl ⟨u, r, rfl, hr⟩)
      · exact Or.inl ⟨u, r, _, _, rfl, pbDecodeTag_reads_key hr hk⟩
  · cases a with
    | ok k => exact absurd rfl ha
    | error eof =>
      obtain rfl := pbDecodeVarint32Eof_error hw (hf [] none)
      refine Or.inr (Or.inr ⟨r, msg, fun t e => ?_⟩)
      rw [pbDecodeTag, hf t e]

/-! ## Data -/

variable {mem : P → List (PbField P)} {field : PbField P} {slot slot' : Slot}
  {decode : P → List Slot → IStream → (Bool × List Slot) × IStream}

/-- What a decoder of submessages does with those that are shorter than `n`: it accepts the messages
and nothing else. -/
def DecodesShort (mem : P → List (PbField P)) (n : Nat)
    (decode : P → List Slot → IStream → (Bool × List Slot) × IStream) : Prop :=
  ∀ (ptr : P) (dest dest' : List Slot) (q t : List UInt8) (e : Option String) (s : IStream),
    q.length < n → (decode ptr dest (window q t e) = ((true, dest'), s) ↔
      ∃ rest, IsMessage mem (mem ptr) dest q dest' rest ∧ s = window rest t e)

theorem failed_ne_ok {α : Type} {a b : α} {s s' : IStream} :
    ((false, a), s) ≠ ((true, b), s') := by
  simp

/-- The bytes that a read hands out. -/
theorem pbRead_some {w t c : List UInt8} {e : Option String} {n : Nat} {s : IStream}
    (h : pbRead (window w t e) n = (some c, s)) : ∃ r, w = c ++ r ∧ s = window r t e ∧ c.length = n := by
  by_cases hshort : w.length < n
  · rw [pbRead_short hshort] at h
    exact absurd (Prod.mk.inj h).1 (by simp)
  · have hlen : (w.take n).length = n := List.length_take_of_le (Nat.not_lt.mp hshort)
    have hread := pbRead_window (w.take n) (w.drop n) t e
    rw [List.take_append_drop, hlen, h, Prod.mk.injEq] at hread
    obtain ⟨hc, rfl⟩ := hread
    obtain rfl := Option.some.inj hc
    exact ⟨w.drop n, (List.take_append_drop n w).symm, rfl, hlen⟩

theorem pbDecUvarint_iff (hl : field.ltype = .uvarint) {w t : List UInt8} {e : Option String}
    {s : IStream} : pbDecUvarint field slot (window w t e) = ((true, slot'), s) ↔
      ∃ p r, w = p ++ r ∧ s = window r t e ∧ IsData mem field slot p slot' := by
  constructor
  · intro h
    rw [pbDecUvarint] at h
    rcases hread : pbDecodeVarint (window w t e) with ⟨_ | value, s'⟩
    · rw [hread] at h
      exact absurd h failed_ne_ok
    · obtain ⟨p, r, rfl, rfl, hp⟩ := pbDecodeVarint_prefixReader.reads_of_ok hread rfl
      rw [hread] at h
      dsimp only at h
      split_ifs at h with hsize hclamp
      · exact absurd h failed_ne_ok
      · obtain ⟨hslot, rfl⟩ := Prod.mk.inj h
        obtain ⟨-, rfl⟩ := Prod.mk.inj hslot
        rw [not_not] at hclamp
        have hlt : value.toNat < 256 ^ field.dataSize := by
          have hmod : value.toNat % 256 ^ field.dataSize < 256 ^ field.dataSize :=
            Nat.mod_lt _ (Nat.pow_pos (by decide))
          have hle := Nat.mod_le value.toNat (256 ^ field.dataSize)
          have hnat := congrArg UInt64.toNat hclamp
          have hvalue := value.toNat_lt
          rw [UInt64.toNat_ofNat', Nat.mod_eq_of_lt (by omega)] at hnat
          omega
        rw [hclamp]
        exact ⟨p, r, rfl, rfl, .uvarint hl hp hsize hlt⟩
      · exact absurd h failed_ne_ok
  · rintro ⟨p, r, rfl, rfl, hdata⟩
    cases hdata with
    | uvarint _ hp hsize hlt =>
      rw [pbDecUvarint, hp r t e]
      dsimp only
      rw [if_pos hsize, Nat.mod_eq_of_lt hlt, UInt64.ofNat_toNat, if_neg (by simp)]
    | string hl' => exact absurd (hl.symm.trans hl') (by decide)
    | submessage hl' => exact absurd (hl.symm.trans hl') (by decide)

theorem pbDecString_iff (hl : field.ltype = .string) {w t : List UInt8} {e : Option String}
    {s : IStream} : pbDecString field slot (window w t e) = ((true, slot'), s) ↔
      ∃ p r, w = p ++ r ∧ s = window r t e ∧ IsData mem field slot p slot' := by
  have halloc : ∀ {size : UInt32}, size.toNat + 1 < 2 ^ 32 → (size + 1).toNat = size.toNat + 1 := by
    intro size hsize
    rw [UInt32.toNat_add]
    exact Nat.mod_eq_of_lt hsize
  constructor
  · intro h
    rw [pbDecString] at h
    rcases hread : pbDecodeVarint32 (window w t e) with ⟨_ | size, s'⟩
    · rw [hread] at h
      exact absurd h failed_ne_ok
    · obtain ⟨u, x, rfl, rfl, hu⟩ := pbDecodeVarint32_prefixReader.reads_of_ok hread rfl
      rw [hread] at h
      dsimp only at h
      by_cases hwrap : size + 1 < size
      · rw [if_pos hwrap] at h
        exact absurd h failed_ne_ok
      · have hsize : size.toNat + 1 < 2 ^ 32 := by
          by_contra hbig
          have hlast : size.toNat + 1 = 2 ^ 32 := by
            have := size.toNat_lt
            omega
          refine hwrap (UInt32.lt_iff_toNat_lt.mpr ?_)
          rw [UInt32.toNat_add]
          show (size.toNat + 1) % 2 ^ 32 < size.toNat
          rw [hlast, Nat.mod_self]
          omega
        rw [if_neg hwrap, halloc hsize] at h
        by_cases hfits : field.dataSize < size.toNat + 1
        · rw [if_pos hfits] at h
          exact absurd h failed_ne_ok
        · rw [if_neg hfits] at h
          rcases hbytes : pbRead (window x t e) size.toNat with ⟨_ | c, s''⟩
          · rw [hbytes] at h
            exact absurd h failed_ne_ok
          · obtain ⟨r, rfl, rfl, hlen⟩ := pbRead_some hbytes
            rw [hbytes] at h
            obtain ⟨hslot, rfl⟩ := Prod.mk.inj h
            obtain ⟨-, rfl⟩ := Prod.mk.inj hslot
            rw [← hlen]
            exact ⟨u ++ c, r, (List.append_assoc _ _ _).symm, rfl,
              .string hl hu hlen (by omega) (by omega)⟩
  · rintro ⟨p, r, rfl, rfl, hdata⟩
    cases hdata with
    | @string _ _ u c size _ hu hlen hmax hfits =>
      have hsize : (size + 1).toNat = size.toNat + 1 := halloc (by omega)
      have hwrap : ¬ size + 1 < size := by
        rw [UInt32.lt_iff_toNat_lt, hsize]
        omega
      have hroom : ¬ field.dataSize < size.toNat + 1 := by omega
      rw [pbDecString, List.append_assoc, hu (c ++ r) t e]
      dsimp only
      rw [if_neg hwrap, hsize, if_neg hroom, ← hlen, pbRead_window c r t e]
    | uvarint hl' => exact absurd (hl.symm.trans hl') (by decide)
    | submessage hl' => exact absurd (hl.symm.trans hl') (by decide)

theorem pbDecSubmessage_iff (hl : field.ltype = .submessage) {n : Nat}
    (hdecode : DecodesShort mem n decode) {w t : List UInt8} {e : Option String} {s : IStream}
    (hw : w.length < n) : pbDecSubmessage field decode slot (window w t e) = ((true, slot'), s) ↔
      ∃ p r, w = p ++ r ∧ s = window r t e ∧ IsData mem field slot p slot' := by
  constructor
  · intro h
    rw [pbDecSubmessage] at h
    rcases hread : pbDecodeVarint32 (window w t e) with ⟨_ | size, s'⟩
    · rw [pbMakeStringSubstream, hread] at h
      exact absurd h failed_ne_ok
    · obtain ⟨u, x, rfl, rfl, hu⟩ := pbDecodeVarint32_prefixReader.reads_of_ok hread rfl
      by_cases hshort : x.length < size.toNat
      · rw [makeSubstream_short hu hshort t e] at h
        exact absurd h failed_ne_ok
      · obtain ⟨q, r, rfl, hq⟩ : ∃ q r, x = q ++ r ∧ q.length = size.toNat :=
          ⟨_, _, (List.take_append_drop size.toNat x).symm, List.length_take_of_le (by omega)⟩
        have hshorter : q.length < n := by
          rw [List.length_append, List.length_append] at hw
          omega
        rw [makeSubstream_window hu hq r t e] at h
        dsimp only at h
        cases hptr : field.ptr with
        | none =>
          rw [hptr] at h
          exact absurd h failed_ne_ok
        | some ptr =>
          rw [hptr] at h
          dsimp only at h
          rcases hsub : decode ptr slot.members (window q (r ++ t) e) with ⟨⟨status, ms⟩, sub⟩
          rw [hsub] at h
          cases status with
          | false =>
            rcases hclose : pbCloseStringSubstream ⟨q ++ (r ++ t), r.length, e⟩ sub with ⟨_ | _, s''⟩
            · rw [hclose] at h
              exact absurd h failed_ne_ok
            · rw [hclose] at h
              exact absurd h failed_ne_ok
          | true =>
            obtain ⟨rest, hmessage, rfl⟩ := (hdecode ptr _ ms q (r ++ t) e sub hshorter).mp hsub
            dsimp only at h
            rw [closeSubstream_window] at h
            obtain ⟨hslot, rfl⟩ := Prod.mk.inj h
            obtain ⟨-, rfl⟩ := Prod.mk.inj hslot
            exact ⟨u ++ q, r, (List.append_assoc _ _ _).symm, rfl,
              .submessage hl hptr hu hq hmessage⟩
  · rintro ⟨p, r, rfl, rfl, hdata⟩
    cases hdata with
    | @submessage _ _ u q rest size ptr ms _ hptr hu hq hmessage =>
      have hshorter : q.length < n := by
        rw [List.length_append, List.length_append] at hw
        omega
      have hsub := (hdecode ptr _ ms q (r ++ t) e _ hshorter).mpr ⟨rest, hmessage, rfl⟩
      rw [pbDecSubmessage, List.append_assoc, makeSubstream_window hu hq r t e]
      dsimp only
      rw [hptr]
      dsimp only
      rw [hsub]
      dsimp only
      rw [closeSubstream_window]
    | uvarint hl' => exact absurd (hl.symm.trans hl') (by decide)
    | string hl' => exact absurd (hl.symm.trans hl') (by decide)

/-- **A member is decoded from data of its field**, and from nothing else. -/
theorem decodeData_iff {n : Nat} (hdecode : DecodesShort mem n decode) {w t : List UInt8}
    {e : Option String} {s : IStream} (hw : w.length < n) :
    decodeData field decode slot (window w t e) = ((true, slot'), s) ↔
      ∃ p r, w = p ++ r ∧ s = window r t e ∧ IsData mem field slot p slot' := by
  rw [decodeData]
  cases hl : field.ltype with
  | uvarint => exact pbDecUvarint_iff hl
  | string => exact pbDecString_iff hl
  | submessage => exact pbDecSubmessage_iff hl hdecode hw

theorem decodeStaticField_optional (hh : field.htype = .optional) (has : Bool) (member : Slot)
    (s : IStream) : decodeStaticField field decode (.optional has member) s
      = (((decodeData field decode member s).1.1,
          .optional true (decodeData field decode member s).1.2),
        (decodeData field decode member s).2) := by
  rw [decodeStaticField]
  exact hh

theorem decodeStaticField_iff {n : Nat} (hdecode : DecodesShort mem n decode) {w t : List UInt8}
    {e : Option String} {s : IStream} (hw : w.length < n) :
    decodeStaticField field decode slot (window w t e) = ((true, slot'), s) ↔
      ∃ p r, w = p ++ r ∧ s = window r t e ∧ IsMember mem field slot p slot' := by
  have hplain : (field.htype = .optional → slot.htype = .required) →
      (decodeStaticField field decode slot (window w t e) = ((true, slot'), s) ↔
        ∃ p r, w = p ++ r ∧ s = window r t e ∧ IsMember mem field slot p slot') := by
    intro hslot
    have hdata : decodeStaticField field decode slot (window w t e)
        = decodeData field decode slot (window w t e) := by
      rw [decodeStaticField]
      rintro has member hh rfl
      exact absurd (hslot hh) (by simp [Slot.htype])
    rw [hdata, decodeData_iff hdecode hw]
    constructor
    · rintro ⟨p, r, hp, hs, h⟩
      exact ⟨p, r, hp, hs, .plain hslot h⟩
    · rintro ⟨p, r, hp, hs, h⟩
      cases h with
      | optional hh => exact absurd (hslot hh) (by simp [Slot.htype])
      | plain _ h => exact ⟨p, r, hp, hs, h⟩
  cases hh : field.htype with
  | required => exact hplain fun h => absurd (hh.symm.trans h) (by decide)
  | optional =>
    cases slot with
    | optional has member =>
      rw [decodeStaticField_optional hh]
      constructor
      · intro h
        rcases hdata : decodeData field decode member (window w t e) with ⟨⟨ok, member'⟩, s'⟩
        rw [hdata] at h
        obtain ⟨hslot, rfl⟩ := Prod.mk.inj h
        obtain ⟨hok, rfl⟩ := Prod.mk.inj hslot
        obtain rfl : ok = true := hok
        obtain ⟨p, r, hp, hs, hmember⟩ := (decodeData_iff hdecode hw).mp hdata
        exact ⟨p, r, hp, hs, .optional hh hmember⟩
      · rintro ⟨p, r, hp, hs, hmember⟩
        cases hmember with
        | optional _ hmember =>
          rw [(decodeData_iff hdecode hw).mpr ⟨p, r, hp, hs, hmember⟩]
        | plain hslot => exact absurd (hslot hh) (by simp [Slot.htype])
    | chars a => exact hplain fun _ => rfl
    | uint v => exact hplain fun _ => rfl
    | struct ms => exact hplain fun _ => rfl

/-! ## Fields -/

variable {fields : List (PbField P)} {dest dest' : List Slot} {read : List Nat}

/-- The field at the iterator. -/
theorem decodeField_iff {n i : Nat} (hdecode : DecodesShort mem n decode) {f : PbField P}
    (hf : fields[i]? = some f) {w t : List UInt8} {e : Option String} {s : IStream}
    (hw : w.length < n) :
    decodeField fields (iterAt fields i) decode dest (window w t e) = ((true, dest'), s) ↔
      ∃ slot slot' p r, dest[i]? = some slot ∧ dest' = dest.set i slot' ∧ w = p ++ r ∧
        s = window r t e ∧ IsMember mem f slot p slot' := by
  have hpos : (iterAt fields i).pos = i := rfl
  rw [decodeField, hpos, hf]
  cases hslot : dest[i]? with
  | none =>
    constructor
    · intro h
      exact absurd h failed_ne_ok
    · rintro ⟨slot, -, -, -, hslot', -⟩
      exact absurd hslot' (by simp)
  | some slot =>
    constructor
    · intro h
      rcases hmember : decodeStaticField f decode slot (window w t e) with ⟨⟨ok, slot'⟩, s'⟩
      dsimp only at h
      rw [hmember] at h
      obtain ⟨hdest, rfl⟩ := Prod.mk.inj h
      obtain ⟨hok, rfl⟩ := Prod.mk.inj hdest
      obtain rfl : ok = true := hok
      obtain ⟨p, r, hp, hs, hm⟩ := (decodeStaticField_iff hdecode hw).mp hmember
      exact ⟨slot, slot', p, r, rfl, rfl, hp, hs, hm⟩
    · rintro ⟨slot₀, slot', p, r, hslot₀, rfl, hp, hs, hm⟩
      obtain rfl := Option.some.inj hslot₀
      dsimp only
      rw [(decodeStaticField_iff hdecode hw).mpr ⟨p, r, hp, hs, hm⟩]

/-- No tag stands twice in a table. -/
def DistinctTags (fields : List (PbField P)) : Prop := (fields.map PbField.tag).Nodup

/-- A table that a tag can be looked up in: no tag stands twice, and none is that of the
terminator. -/
structure Searchable (fields : List (PbField P)) : Prop where
  tags : DistinctTags fields
  tag_pos : ∀ f ∈ fields, 0 < f.tag

theorem checkRequired_iff {seen : List Nat} (hseen : SeenBits fields seen read) {j : Nat}
    (hj : Stands fields j) {s s' : IStream} :
    checkRequired fields (iterAt fields j) seen dest s = ((true, dest'), s') ↔
      RequiredRead fields read ∧ dest' = dest ∧ s' = s := by
  rw [checkRequired]
  by_cases h : requiredSeen (reqFieldCount fields (iterAt fields j)) seen = true
  · rw [if_pos h, Prod.mk.injEq, Prod.mk.injEq]
    have hread := (hseen.requiredSeen_iff hj).mp h
    exact ⟨fun ⟨⟨_, hd⟩, hs⟩ => ⟨hread, hd.symm, hs.symm⟩, fun ⟨_, hd, hs⟩ =>
      ⟨⟨rfl, hd.symm⟩, hs.symm⟩⟩
  · rw [if_neg h]
    exact ⟨fun h' => absurd h' failed_ne_ok,
      fun ⟨hread, _⟩ => absurd ((hseen.requiredSeen_iff hj).mpr hread) h⟩

/-- What the loop is to find ahead of it, where the places `before` have been read: records, with
them all required fields, and an end. -/
def Ahead (mem : P → List (PbField P)) (fields : List (PbField P)) (before : List Nat)
    (dest : List Slot) (w : List UInt8) (dest' : List Slot) (rest : List UInt8) : Prop :=
  ∃ p z read, w = p ++ z ∧ AreRecords mem fields dest p dest' read ∧
    RequiredRead fields (read.reverse ++ before) ∧ EndsMessage z rest

theorem zero_key_ne_nil {k : List UInt8} (h : Reads pbDecodeVarint32Eof k (.ok 0)) : k ≠ [] := by
  rintro rfl
  exact absurd (Prod.mk.inj (h [] [] none)).1 (by simp)

/-- Records and an end that begin with a key. -/
theorem AreRecords.of_key {k x p z rest : List UInt8} {wireType tag : Nat}
    (hk : Reads pbDecodeTag k (.field wireType tag)) (hw : k ++ x = p ++ z)
    (h : AreRecords mem fields dest p dest' read) (hend : EndsMessage z rest) :
    (∃ i f slot slot' y q read', fields[i]? = some f ∧ f.tag = tag ∧ dest[i]? = some slot ∧
      IsMember mem f slot y slot' ∧ x = y ++ (q ++ z) ∧ read = i :: read' ∧
      AreRecords mem fields (dest.set i slot') q dest' read') ∨
    ∃ y q, Unlisted fields tag ∧ Reads (fun s => pbSkipField s wireType) y true ∧
      x = y ++ (q ++ z) ∧ AreRecords mem fields dest q dest' read := by
  cases h with
  | nil =>
    rw [List.nil_append] at hw
    rcases hend with ⟨rfl, -⟩ | ⟨k', rfl, hk'⟩
    · exact absurd (List.append_eq_nil_iff.mp hw).1 (reads_tag_ne_nil hk)
    · obtain ⟨-, -, htag⟩ := hk.unique (reads_zero_key hk') hw
      exact absurd htag (by simp)
  | @field _ _ _ k' y q _ i f _ _ _ hk' hf hslot hm hrest =>
    rw [List.append_assoc, List.append_assoc] at hw
    obtain ⟨-, hx, htag⟩ := hk.unique hk' hw
    obtain ⟨-, rfl⟩ := TagRead.field.inj htag
    exact Or.inl ⟨i, f, _, _, y, q, _, hf, rfl, hslot, hm, hx, rfl, hrest⟩
  | @skipped _ _ _ k' y q _ _ _ hk' hno hskip hrest =>
    rw [List.append_assoc, List.append_assoc] at hw
    obtain ⟨-, hx, htag⟩ := hk.unique hk' hw
    obtain ⟨rfl, rfl⟩ := TagRead.field.inj htag
    exact Or.inr ⟨y, q, hno, hskip, hx, hrest⟩

/-- Records and an end that begin with no key of a record: there are no records. -/
theorem AreRecords.of_stop {w p z : List UInt8} {eof : Bool} {s : IStream}
    (hstop : pbDecodeTag (window w [] none) = (.stop eof, s)) (hw : w = p ++ z)
    (h : AreRecords mem fields dest p dest' read) : p = [] ∧ dest' = dest ∧ read = [] := by
  cases h with
  | nil => exact ⟨rfl, rfl, rfl⟩
  | field hk =>
    rw [hw, List.append_assoc, hk _ [] none] at hstop
    exact absurd (Prod.mk.inj hstop).1 (by simp)
  | skipped hk =>
    rw [hw, List.append_assoc, hk _ [] none] at hstop
    exact absurd (Prod.mk.inj hstop).1 (by simp)

theorem RequiredRead.congr {read' : List Nat} (h : ∀ i, i ∈ read ↔ i ∈ read') :
    RequiredRead fields read ↔ RequiredRead fields read' :=
  forall_congr' fun i => imp_congr_right fun _ => imp_congr_right fun _ => h i

theorem EndsMessage.unique {z rest rest' : List UInt8} (h : EndsMessage z rest)
    (h' : EndsMessage z rest') : rest = rest' := by
  rcases h with ⟨rfl, rfl⟩ | ⟨k, rfl, hk⟩
  · rcases h' with ⟨-, rfl⟩ | ⟨k', hnil, hk'⟩
    · rfl
    · exact absurd (List.append_eq_nil_iff.mp hnil.symm).1 (zero_key_ne_nil hk')
  · rcases h' with ⟨hnil, -⟩ | ⟨k', heq, hk'⟩
    · exact absurd (List.append_eq_nil_iff.mp hnil).1 (zero_key_ne_nil hk)
    · exact (hk.unique hk' heq).2.1

/-- Where no record comes, the end of the message is ahead. -/
theorem ahead_stop_iff {before : List Nat} {w x rest : List UInt8} {s : IStream} {eof : Bool}
    (hstop : pbDecodeTag (window w [] none) = (.stop eof, s)) (hend : EndsMessage w x) :
    Ahead mem fields before dest w dest' rest ↔
      RequiredRead fields before ∧ dest' = dest ∧ rest = x := by
  constructor
  · rintro ⟨p, z, read, hw, hrecords, hread, hend'⟩
    obtain ⟨rfl, rfl, rfl⟩ := hrecords.of_stop hstop hw
    rw [List.nil_append] at hw
    rw [← hw] at hend'
    exact ⟨hread, rfl, hend'.unique hend⟩
  · rintro ⟨hread, rfl, rfl⟩
    exact ⟨[], w, [], rfl, .nil, hread, hend⟩

/-- Where no key comes, there is no message ahead. -/
theorem not_ahead {before : List Nat} {w rest : List UInt8} {s : IStream} (hw : w ≠ [])
    (hbad : pbDecodeTag (window w [] none) = (.stop false, s)) :
    ¬ Ahead mem fields before dest w dest' rest := by
  rintro ⟨p, z, read, hw', hrecords, -, hend⟩
  obtain ⟨rfl, -, -⟩ := hrecords.of_stop hbad hw'
  rw [List.nil_append] at hw'
  subst hw'
  rcases hend with ⟨rfl, -⟩ | ⟨k, rfl, hk⟩
  · exact absurd rfl hw
  · have hzero := reads_zero_key hk rest [] none
    rw [hbad] at hzero
    exact absurd (Prod.mk.inj hzero).1 (by simp)

/-- One turn of the loop, with a tag of the table. -/
theorem decodeLoop_known {n wireType tag : Nat} {iter iter' : PbFieldIter} {seen : List Nat}
    {k x t : List UInt8} {e : Option String} (hk : Reads pbDecodeTag k (.field wireType tag))
    (hfind : pbFieldIterFind fields tag iter = (true, iter')) {ok : Bool} {d : List Slot}
    {s : IStream} (hfield : decodeField fields iter'
      (fun ptr => decodeLoop mem n (mem ptr) pbFieldIterBegin noneSeen) dest (window x t e)
        = ((ok, d), s)) :
    decodeLoop mem (n + 1) fields iter seen dest (window (k ++ x) t e)
      = if ok then decodeLoop mem n fields iter' (markSeen fields iter' seen) d s
        else ((false, d), s) := by
  have hne : (window (k ++ x) t e).bytesLeft ≠ 0 := by
    simp [reads_tag_ne_nil hk]
  rw [decodeLoop, if_neg hne, hk x t e]
  simp only [hfind, hfield]
  cases ok <;> rfl

/-- One turn of the loop, with any other tag. -/
theorem decodeLoop_unknown {n wireType tag : Nat} {iter iter' : PbFieldIter} {seen : List Nat}
    {k x t : List UInt8} {e : Option String} (hk : Reads pbDecodeTag k (.field wireType tag))
    (hfind : pbFieldIterFind fields tag iter = (false, iter')) {ok : Bool} {s : IStream}
    (hskip : pbSkipField (window x t e) wireType = (ok, s)) :
    decodeLoop mem (n + 1) fields iter seen dest (window (k ++ x) t e)
      = if ok then decodeLoop mem n fields iter' seen dest s else ((false, dest), s) := by
  have hne : (window (k ++ x) t e).bytesLeft ≠ 0 := by
    simp [reads_tag_ne_nil hk]
  rw [decodeLoop, if_neg hne, hk x t e]
  simp only [hfind, hskip]
  cases ok <;> rfl

/-- One turn of the loop without a tag. -/
theorem decodeLoop_stop {n : Nat} {iter : PbFieldIter} {seen : List Nat} {w t : List UInt8}
    {e : Option String} (hw : w ≠ []) {eof : Bool} {s : IStream}
    (hstop : pbDecodeTag (window w t e) = (.stop eof, s)) :
    decodeLoop mem (n + 1) fields iter seen dest (window w t e)
      = if eof then checkRequired fields iter seen dest s else ((false, dest), s) := by
  have hne : (window w t e).bytesLeft ≠ 0 := by
    simp [hw]
  rw [decodeLoop, if_neg hne, hstop]
  cases eof <;> rfl

/-- A tag is that of one field of the table, or of none, or in an empty table the terminator's. -/
theorem DistinctTags.find (h : DistinctTags fields) {j : Nat} (hj : Stands fields j) (tag : Nat) :
    (∃ i f, fields[i]? = some f ∧ f.tag = tag ∧ i < fields.length ∧
      pbFieldIterFind fields tag (iterAt fields j) = (true, iterAt fields i)) ∨
    Unlisted fields tag ∧
      pbFieldIterFind fields tag (iterAt fields j) = (false, iterAt fields j) ∨
    fields = [] ∧ tag = 0 ∧ pbFieldIterFind fields tag (iterAt fields j) = (true, iterAt fields j) := by
  rcases hj with hj | ⟨rfl, rfl⟩
  · by_cases hno : ∀ f ∈ fields, f.tag ≠ tag
    · have hne : fields ≠ [] := List.ne_nil_of_length_pos (Nat.zero_lt_of_lt hj)
      exact Or.inr (Or.inl ⟨⟨hno, fun h => absurd h hne⟩, pbFieldIterFind_missing hno hj⟩)
    · push Not at hno
      obtain ⟨f, hf, rfl⟩ := hno
      obtain ⟨i, hi, rfl⟩ := List.getElem_of_mem hf
      exact Or.inl ⟨i, _, List.getElem?_eq_getElem hi, rfl, hi, pbFieldIterFind_found h hj hi⟩
  · have hfind := pbFieldIterFind_nil (P := P) tag
    by_cases htag : tag = 0
    · rw [decide_eq_true htag] at hfind
      exact Or.inr (Or.inr ⟨rfl, htag, hfind⟩)
    · rw [decide_eq_false htag] at hfind
      exact Or.inr (Or.inl ⟨⟨List.forall_mem_nil _, fun _ => htag⟩, hfind⟩)

theorem DistinctTags.place_inj (h : DistinctTags fields) {i i' : Nat} {f f' : PbField P}
    (hi : fields[i]? = some f) (hi' : fields[i']? = some f') (htag : f.tag = f'.tag) :
    i = i' ∧ f = f' := by
  obtain ⟨hlt, rfl⟩ := List.getElem?_eq_some_iff.mp hi
  obtain ⟨hlt', rfl⟩ := List.getElem?_eq_some_iff.mp hi'
  obtain rfl := tag_inj h hlt hlt' htag
  exact ⟨rfl, rfl⟩

/-- The key of a field is ahead: its data is, and then the rest of the message. -/
theorem ahead_known_iff (hfields : DistinctTags fields) {i wireType : Nat} {f : PbField P}
    (hf : fields[i]? = some f) {k x rest : List UInt8} {before : List Nat}
    (hk : Reads pbDecodeTag k (.field wireType f.tag)) :
    Ahead mem fields before dest (k ++ x) dest' rest ↔
      ∃ slot slot' y r, dest[i]? = some slot ∧ x = y ++ r ∧ IsMember mem f slot y slot' ∧
        Ahead mem fields (i :: before) (dest.set i slot') r dest' rest := by
  have hplaces : ∀ read : List Nat, (i :: read).reverse ++ before = read.reverse ++ i :: before :=
    fun read => by rw [List.reverse_cons, List.append_assoc, List.singleton_append]
  constructor
  · rintro ⟨p, z, read, hw, hrecords, hread, hend⟩
    rcases hrecords.of_key hk hw hend with ⟨i', f', slot, slot', y, q, read', hf', htag, hslot,
      hmember, rfl, rfl, hrecords'⟩ | ⟨-, -, ⟨hno, -⟩, -⟩
    · obtain ⟨rfl, rfl⟩ := hfields.place_inj hf' hf htag
      exact ⟨slot, slot', y, q ++ z, hslot, rfl, hmember, q, z, read', rfl, hrecords',
        hplaces read' ▸ hread, hend⟩
    · exact absurd rfl (hno f (List.mem_of_getElem? hf))
  · rintro ⟨slot, slot', y, r, hslot, rfl, hmember, q, z, read, rfl, hrecords, hread, hend⟩
    refine ⟨k ++ (y ++ q), z, i :: read, ?_, .field hk hf hslot hmember hrecords,
      (hplaces read).symm ▸ hread, hend⟩
    simp only [List.append_assoc]

/-- Any other key is ahead: data to skip is, and then the rest of the message. -/
theorem ahead_unknown_iff {wireType tag : Nat} {k x rest : List UInt8} {before : List Nat}
    (hk : Reads pbDecodeTag k (.field wireType tag)) (hno : Unlisted fields tag) :
    Ahead mem fields before dest (k ++ x) dest' rest ↔
      ∃ y r, x = y ++ r ∧ Reads (fun s => pbSkipField s wireType) y true ∧
        Ahead mem fields before dest r dest' rest := by
  constructor
  · rintro ⟨p, z, read, hw, hrecords, hread, hend⟩
    rcases hrecords.of_key hk hw hend with ⟨_, f, -, -, -, -, -, hf, htag, -⟩ |
      ⟨y, q, -, hskip, rfl, hrecords'⟩
    · exact absurd htag (hno.1 f (List.mem_of_getElem? hf))
    · exact ⟨y, q ++ z, rfl, hskip, q, z, read, rfl, hrecords', hread, hend⟩
  · rintro ⟨y, r, rfl, hskip, q, z, read, rfl, hrecords, hread, hend⟩
    refine ⟨k ++ (y ++ q), z, read, ?_, .skipped hk hno hskip hrecords, hread, hend⟩
    simp only [List.append_assoc]

/-- No message of an empty table has a record with the tag of the terminator. -/
theorem not_ahead_nil {wireType : Nat} {k x rest : List UInt8} {before : List Nat}
    (hk : Reads pbDecodeTag k (.field wireType 0)) :
    ¬ Ahead mem [] before dest (k ++ x) dest' rest := by
  rintro ⟨p, z, read, hw, hrecords, -, hend⟩
  rcases hrecords.of_key hk hw hend with ⟨i, f, -, -, -, -, -, hf, -⟩ | ⟨-, -, ⟨-, hno⟩, -⟩
  · exact absurd hf (by simp)
  · exact hno rfl rfl

/-- The loop behind the key of a field. -/
theorem decodeLoop_known_iff {n i wireType : Nat} {iter : PbFieldIter} {seen : List Nat}
    {f : PbField P} {k x t : List UInt8} {e : Option String} {s : IStream}
    (hdecode : DecodesShort mem n
      (fun ptr => decodeLoop mem n (mem ptr) pbFieldIterBegin noneSeen))
    (hk : Reads pbDecodeTag k (.field wireType f.tag)) (hf : fields[i]? = some f)
    (hfind : pbFieldIterFind fields f.tag iter = (true, iterAt fields i)) (hx : x.length < n) :
    decodeLoop mem (n + 1) fields iter seen dest (window (k ++ x) t e) = ((true, dest'), s) ↔
      ∃ slot slot' y r, dest[i]? = some slot ∧ x = y ++ r ∧ IsMember mem f slot y slot' ∧
        decodeLoop mem n fields (iterAt fields i) (markSeen fields (iterAt fields i) seen)
          (dest.set i slot') (window r t e) = ((true, dest'), s) := by
  constructor
  · intro h
    rcases hfield : decodeField fields (iterAt fields i)
      (fun ptr => decodeLoop mem n (mem ptr) pbFieldIterBegin noneSeen) dest (window x t e)
      with ⟨⟨ok, d⟩, s'⟩
    rw [decodeLoop_known hk hfind hfield] at h
    cases ok with
    | false => exact absurd h failed_ne_ok
    | true =>
      obtain ⟨slot, slot', y, r, hslot, rfl, rfl, rfl, hmember⟩ :=
        (decodeField_iff hdecode hf hx).mp hfield
      exact ⟨slot, slot', y, r, hslot, rfl, hmember, h⟩
  · rintro ⟨slot, slot', y, r, hslot, rfl, hmember, h⟩
    have hfield := (decodeField_iff (t := t) (e := e) hdecode hf hx).mpr
      ⟨slot, slot', y, r, hslot, rfl, rfl, rfl, hmember⟩
    rw [decodeLoop_known hk hfind hfield, if_pos rfl, h]

/-- The loop behind a key that finds the terminator. -/
theorem decodeLoop_terminator {n wireType tag : Nat} {iter iter' : PbFieldIter} {seen : List Nat}
    {k x t : List UInt8} {e : Option String} {s : IStream}
    (hk : Reads pbDecodeTag k (.field wireType tag))
    (hfind : pbFieldIterFind fields tag iter = (true, iter')) (hend : fields[iter'.pos]? = none) :
    decodeLoop mem (n + 1) fields iter seen dest (window (k ++ x) t e) ≠ ((true, dest'), s) := by
  rcases hfield : decodeField fields iter'
    (fun ptr => decodeLoop mem n (mem ptr) pbFieldIterBegin noneSeen) dest (window x t e)
    with ⟨⟨ok, d⟩, s'⟩
  have hfails := decodeTerminator_fails dest (window x t e)
  have hterminator := hfield
  rw [decodeField, hend] at hterminator
  dsimp only at hterminator
  rw [hterminator, Prod.mk.injEq] at hfails
  rw [decodeLoop_known hk hfind hfield, hfails.1]
  exact failed_ne_ok

/-- The loop behind any other key. -/
theorem decodeLoop_unknown_iff {n wireType tag : Nat} {iter : PbFieldIter} {seen : List Nat}
    {k x t : List UInt8} {e : Option String} {s : IStream}
    (hk : Reads pbDecodeTag k (.field wireType tag))
    (hfind : pbFieldIterFind fields tag iter = (false, iter)) :
    decodeLoop mem (n + 1) fields iter seen dest (window (k ++ x) t e) = ((true, dest'), s) ↔
      ∃ y r, x = y ++ r ∧ Reads (fun s => pbSkipField s wireType) y true ∧
        decodeLoop mem n fields iter seen dest (window r t e) = ((true, dest'), s) := by
  constructor
  · intro h
    rcases hskip : pbSkipField (window x t e) wireType with ⟨ok, s'⟩
    rw [decodeLoop_unknown hk hfind hskip] at h
    cases ok with
    | false => exact absurd h failed_ne_ok
    | true =>
      obtain ⟨y, r, rfl, rfl, hy⟩ := (pbSkipField_prefixReader wireType).reads_of_ok hskip rfl
      exact ⟨y, r, rfl, hy, h⟩
  · rintro ⟨y, r, rfl, hy, h⟩
    rw [decodeLoop_unknown hk hfind (hy r t e), if_pos rfl, h]

theorem ahead_nil_iff {w rest : List UInt8} :
    Ahead mem fields [] dest w dest' rest ↔ IsMessage mem fields dest w dest' rest := by
  have hread : ∀ read, RequiredRead fields (read.reverse ++ []) ↔ RequiredRead fields read :=
    fun read => RequiredRead.congr fun i => by rw [List.append_nil, List.mem_reverse]
  constructor
  · rintro ⟨p, z, read, rfl, hrecords, hreq, hend⟩
    exact .mk hrecords ((hread read).mp hreq) hend
  · rintro ⟨hrecords, hreq, hend⟩
    exact ⟨_, _, _, rfl, hrecords, (hread _).mpr hreq, hend⟩

/-- **The loop accepts records and an end, and nothing else**, from any place of the iterator and
with some fields read before. -/
theorem decodeLoop_iff (hmem : ∀ ptr, DistinctTags (mem ptr)) : ∀ (n : Nat)
    {fields : List (PbField P)} {j : Nat} {seen before : List Nat} {dest dest' : List Slot}
    {w t : List UInt8} {e : Option String} {s : IStream}, DistinctTags fields → Stands fields j →
    SeenBits fields seen before → w.length < n →
    (decodeLoop mem n fields (iterAt fields j) seen dest (window w t e) = ((true, dest'), s) ↔
      ∃ rest, Ahead mem fields before dest w dest' rest ∧ s = window rest t e)
  | 0, _, _, _, _, _, _, _, _, _, _, _, _, _, hw => absurd hw (Nat.not_lt_zero _)
  | n + 1, fields, j, seen, before, dest, dest', w, t, e, s, hfields, hj, hseen, hw => by
    -- where no record comes, the check of the required fields decides
    have stopped : ∀ {x : List UInt8} {eof : Bool} {s' : IStream},
        pbDecodeTag (window w [] none) = (.stop eof, s') → EndsMessage w x →
        (checkRequired fields (iterAt fields j) seen dest (window x t e) = ((true, dest'), s) ↔
          ∃ rest, Ahead mem fields before dest w dest' rest ∧ s = window rest t e) := by
      intro x eof s' hstop hend
      simp only [checkRequired_iff hseen hj, ahead_stop_iff hstop hend]
      exact ⟨fun ⟨hread, hd, hs⟩ => ⟨x, ⟨hread, hd, rfl⟩, hs⟩,
        fun ⟨_, ⟨hread, hd, hx⟩, hs⟩ => ⟨hread, hd, hx ▸ hs⟩⟩
    by_cases hnil : w = []
    · subst hnil
      rw [decodeLoop_nil]
      exact stopped (pbDecodeTag_nil [] none) (Or.inl ⟨rfl, rfl⟩)
    · rcases pbDecodeTag_cases hnil with ⟨k, x, wireType, tag, rfl, hk⟩ | ⟨k, x, rfl, hk⟩ |
        ⟨x, msg, hbad⟩
      · -- the key of a record
        have hshorter : x.length < n := by
          have := List.length_pos_of_ne_nil (reads_tag_ne_nil hk)
          rw [List.length_append] at hw
          omega
        have hbehind : ∀ {y r : List UInt8}, x = y ++ r → r.length < n := by
          rintro y r rfl
          rw [List.length_append] at hshorter
          omega
        rcases hfields.find hj tag with ⟨i, f, hf, rfl, hi, hfind⟩ | ⟨hno, hfind⟩ |
          ⟨rfl, rfl, hfind⟩
        · have hdecode : DecodesShort mem n
              (fun ptr => decodeLoop mem n (mem ptr) pbFieldIterBegin noneSeen) := by
            intro ptr d d' q t e s hq
            simp only [← ahead_nil_iff]
            exact decodeLoop_iff hmem n (hmem ptr) (stands_begin (mem ptr))
              (seenBits_none (mem ptr)) hq
          rw [decodeLoop_known_iff hdecode hk hf hfind hshorter]
          simp only [ahead_known_iff hfields hf hk]
          constructor
          · rintro ⟨slot, slot', y, r, hslot, hx, hmember, h⟩
            obtain ⟨rest, hahead, hs⟩ :=
              (decodeLoop_iff hmem n hfields (Or.inl hi) (hseen.markSeen i) (hbehind hx)).mp h
            exact ⟨rest, ⟨slot, slot', y, r, hslot, hx, hmember, hahead⟩, hs⟩
          · rintro ⟨rest, ⟨slot, slot', y, r, hslot, hx, hmember, hahead⟩, hs⟩
            exact ⟨slot, slot', y, r, hslot, hx, hmember, (decodeLoop_iff hmem n hfields (Or.inl hi)
              (hseen.markSeen i) (hbehind hx)).mpr ⟨rest, hahead, hs⟩⟩
        · rw [decodeLoop_unknown_iff hk hfind]
          simp only [ahead_unknown_iff hk hno]
          constructor
          · rintro ⟨y, r, hx, hskip, h⟩
            obtain ⟨rest, hahead, hs⟩ :=
              (decodeLoop_iff hmem n hfields hj hseen (hbehind hx)).mp h
            exact ⟨rest, ⟨y, r, hx, hskip, hahead⟩, hs⟩
          · rintro ⟨rest, ⟨y, r, hx, hskip, hahead⟩, hs⟩
            exact ⟨y, r, hx, hskip,
              (decodeLoop_iff hmem n hfields hj hseen (hbehind hx)).mpr ⟨rest, hahead, hs⟩⟩
        · exact ⟨fun h => absurd h (decodeLoop_terminator hk hfind rfl),
            fun ⟨_, hahead, _⟩ => absurd hahead (not_ahead_nil hk)⟩
      · -- a zero key
        rw [decodeLoop_stop hnil (reads_zero_key hk x t e), if_pos rfl]
        exact stopped (reads_zero_key hk x [] none) (Or.inr ⟨k, rfl, hk⟩)
      · -- no key
        rw [decodeLoop_stop hnil (hbad t e), if_neg Bool.false_ne_true]
        exact ⟨fun h => absurd h failed_ne_ok,
          fun ⟨_, hahead, _⟩ => absurd hahead (not_ahead hnil (hbad [] none))⟩

/-! ## The whole message -/

/-- `pb_decode_noinit` accepts the messages and nothing else. -/
theorem pbDecodeNoinit_iff (hmem : ∀ ptr, DistinctTags (mem ptr)) (hfields : DistinctTags fields)
    {w t : List UInt8} {e : Option String} {s : IStream} :
    pbDecodeNoinit mem fields dest (window w t e) = ((true, dest'), s) ↔
      ∃ rest, IsMessage mem fields dest w dest' rest ∧ s = window rest t e := by
  simp only [← ahead_nil_iff]
  exact decodeLoop_iff hmem (w.length + 1) hfields (stands_begin fields) (seenBits_none fields)
    (Nat.lt_succ_self _)

/-- **`pb_decode` accepts the messages and nothing else**: it answers `true` exactly when the window
is a message, stands behind it then, and leaves the struct that it makes of the defaults. -/
theorem pbDecode_iff (hmem : ∀ ptr, Searchable (mem ptr)) (hfields : Searchable fields)
    (w t : List UInt8) (e : Option String) (s : IStream) :
    pbDecode mem fields dest (window w t e) = ((true, dest'), s) ↔
      ∃ rest, IsMessage mem fields (pbMessageSetToDefaults mem fields dest) w dest' rest ∧
        s = window rest t e :=
  pbDecodeNoinit_iff (fun ptr => (hmem ptr).tags) hfields.tags

/-- A number behind a field that the table does not have; behind its zero key nothing is read. -/
theorem pbDecode_iff_number :
    let mem : Unit → List (PbField Unit) := fun _ => []
    let number : PbField Unit := ⟨1, .required, .uvarint, 4, none⟩
    pbDecode mem [number] [.uint 5] (window [0x10, 0x63, 0x08, 0x07, 0x00, 0x63] [] none)
      = ((true, [.uint 7]), window [0x63] [] none) := by
  intro mem number
  have htag : Reads pbDecodeTag [0x08] (.field 0 1) :=
    @pbDecodeTag_reads [0x08] (by decide) (by decide) (by decide)
  have hforeign : Reads pbDecodeTag [0x10] (.field 0 2) :=
    @pbDecodeTag_reads [0x10] (by decide) (by decide) (by decide)
  have hskip : Reads (fun s => pbSkipField s 0) [0x63] true :=
    @pbSkipVarint_reads [0x63] (by decide)
  have hzero : Reads pbDecodeVarint32Eof [0x00] (.ok 0) :=
    @pbDecodeVarint32Eof_reads [0x00] (by decide) (by decide)
  have hvalue : Reads pbDecodeVarint [0x07] (some 7) := by
    have hbytes : Base128.encode 7 = [0x07] := by decide +kernel
    exact hbytes ▸ @pbDecodeVarint_encode 7 (by decide)
  have hmember : IsMember mem number (.uint 0) [0x07] (.uint 7) :=
    .plain (fun _ => rfl) (.uvarint rfl hvalue rfl (by decide))
  have hfield : AreRecords mem [number] [.uint 0] [0x08, 0x07] [.uint 7] [0] :=
    .field (i := 0) (q := []) htag rfl rfl hmember .nil
  have hrecords : AreRecords mem [number] [.uint 0] [0x10, 0x63, 0x08, 0x07] [.uint 7] [0] :=
    .skipped hforeign ⟨by decide, fun h => absurd h (List.cons_ne_nil _ _)⟩ hskip hfield
  have hrequired : RequiredRead [number] [0] := fun i hi _ => by
    cases i with
    | zero => decide
    | succ i => exact absurd hi (by simp [requiredAt])
  have hmem : ∀ ptr, Searchable (mem ptr) := fun _ => ⟨List.nodup_nil, List.forall_mem_nil _⟩
  have hfields : Searchable [number] := ⟨List.nodup_singleton 1, by decide⟩
  exact (pbDecode_iff hmem hfields _ _ _ _).mpr
    ⟨[0x63], .mk hrecords hrequired (Or.inr ⟨[0x00], rfl, hzero⟩), rfl⟩

end EmbeddedTestbench.Nanopb
