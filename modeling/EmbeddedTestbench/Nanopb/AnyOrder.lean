import EmbeddedTestbench.Nanopb.Grammar
import EmbeddedTestbench.Nanopb.Encode

/-!
# A message may come in any order (`pb_encode.c`, `pb_decode.c`)

`pb_encode` writes the fields of a struct in the order of its table. `pb_decode` looks each tag up
and skips the tags it does not know, so the fields may as well come in another order, in each
submessage too, and with the fields of a newer version of the message between them.
`SpellsMessage` are the bytes that say the same as `pb_encode` would.

Headline: **`spellsMessage_wire`**: `pb_encode` spells the message.
-/

namespace EmbeddedTestbench.Nanopb

open IStream EmbeddedTestbench.Lib

variable {P : Type}

/-! ## The bytes -/

/-- The member without its flag. -/
def Slot.data : Slot → Slot
  | .optional _ member => member
  | slot => slot

/-- Records that spell members of the struct, each at most once; `read` are their places. -/
inductive SpellsFields (data : PbField P → Slot → List UInt8 → Prop) :
    List Nat → List (PbField P) → List Slot → List UInt8 → Prop where
  | nil {fields : List (PbField P)} {slots : List Slot} : SpellsFields data [] fields slots []
  | field {fields : List (PbField P)} {slots : List Slot} {i : Nat} {f : PbField P} {slot : Slot}
    {read : List Nat} {p q : List UInt8} :
    fields[i]? = some f → slots[i]? = some slot → slot.has = true → i ∉ read →
    data f slot.data p → SpellsFields data read fields slots q →
    SpellsFields data (i :: read) fields slots (keyBytes f ++ (p ++ q))
  | foreign {fields : List (PbField P)} {slots : List Slot} {wireType tag : Nat} {read : List Nat}
    {k p q : List UInt8} :
    Reads pbDecodeTag k (.field wireType tag) → Unlisted fields tag →
    Reads (fun s => pbSkipField s wireType) p true → SpellsFields data read fields slots q →
    SpellsFields data read fields slots (k ++ (p ++ q))

/-- No member that is there was left out. -/
def AllRead (slots : List Slot) (read : List Nat) : Prop :=
  ∀ i slot, slots[i]? = some slot → slot.has = true → i ∈ read

/-- The payload of a field that holds the member. -/
inductive SpellsData (mem : P → List (PbField P)) : PbField P → Slot → List UInt8 → Prop where
  | string {field : PbField P} {a : List UInt8} :
    SpellsData mem field (.chars a) (lengthPrefixed (cString a))
  | uvarint {field : PbField P} {v : UInt64} :
    SpellsData mem field (.uint v) (Base128.encode v.toNat)
  | submessage {field : PbField P} {ptr : P} {members : List Slot} {read : List Nat}
    {p : List UInt8} :
    field.ptr = some ptr → SpellsFields (SpellsData mem) read (mem ptr) members p →
    AllRead members read → p.length < 2 ^ 32 →
    SpellsData mem field (.struct members) (lengthPrefixed p)

/-- The bytes say what the struct holds. -/
def SpellsMessage (mem : P → List (PbField P)) (fields : List (PbField P)) (slots : List Slot)
    (w : List UInt8) : Prop :=
  ∃ read, SpellsFields (SpellsData mem) read fields slots w ∧ AllRead slots read

mutual

/-- No flag has a flag. -/
def Slot.Flat : Slot → Prop
  | .struct members => AllFlat members
  | .optional _ member => member.htype = .required ∧ member.Flat
  | _ => True

def AllFlat : List Slot → Prop
  | [] => True
  | slot :: slots => slot.Flat ∧ AllFlat slots

end

mutual

/-- The strings that are sent end inside their arrays. -/
def Slot.Ends : Slot → Prop
  | .chars a => 0 ∈ a
  | .uint _ => True
  | .struct members => AllEnd members
  | .optional has member => has = true → member.Ends

def AllEnd : List Slot → Prop
  | [] => True
  | slot :: slots => slot.Ends ∧ AllEnd slots

end

variable {mem : P → List (PbField P)} {fields : List (PbField P)} {field : PbField P}
  {slot : Slot} {slots : List Slot}

/-! ## Keys and lengths -/

theorem lengthPrefixed_length_le {bs : List UInt8} (h : bs.length < 2 ^ 32) :
    (lengthPrefixed bs).length ≤ bs.length + 5 := by
  have := Base128.encode_length_le 4 bs.length (h.trans (by decide))
  rw [lengthPrefixed, List.length_append]
  omega

theorem keyBytes_length_le (h : field.tag < 2 ^ 29) : (keyBytes field).length ≤ 5 := by
  have := wireTypeOf_lt field.ltype
  exact Base128.encode_length_le 4 _ (by omega)

theorem pbDecodeTag_keyBytes (hrange : field.InRange) (hpos : 0 < field.tag) :
    Reads pbDecodeTag (keyBytes field) (.field (wireTypeOf field.ltype) field.tag) := by
  have hw := wireTypeOf_lt field.ltype
  have htag := hrange.1
  have hval := Base128.value_encode (8 * field.tag + wireTypeOf field.ltype)
  have := pbDecodeTag_reads (Base128.isVarint_encode (8 * field.tag + wireTypeOf field.ltype))
    (by omega) (by omega)
  obtain ⟨hmod, hdiv⟩ := key_parts hw field.tag
  rwa [hval, hmod, hdiv] at this

theorem keyBytes_ne_nil (field : PbField P) : keyBytes field ≠ [] :=
  (Base128.isVarint_encode _).ne_nil

/-! ## Members of a struct -/

/-- The members have the shapes of their fields. -/
theorem HaveShapes.getElem : ∀ {fields : List (PbField P)} {slots : List Slot},
    HaveShapes mem fields slots → ∀ {i : Nat} {slot : Slot}, slots[i]? = some slot →
      ∃ f, fields[i]? = some f ∧ f.InRange ∧ f.htype = slot.htype ∧ HasShape mem f slot
  | [], [], _, _, _, h => absurd h (by simp)
  | field :: fields, slot :: slots, hsh, 0, _, h => by
    rw [HaveShapes] at hsh
    obtain ⟨hrange, hh, hm, -⟩ := hsh
    obtain rfl := Option.some.inj h
    exact ⟨field, rfl, hrange, hh, hm⟩
  | _ :: _, _ :: _, hsh, i + 1, _, h => by
    rw [HaveShapes] at hsh
    exact hsh.2.2.2.getElem h
  | [], _ :: _, h, _, _, _ => (not_haveShapes_nil_cons h).elim
  | _ :: _, [], h, _, _, _ => (not_haveShapes_cons_nil h).elim

theorem HaveShapes.length_eq (h : HaveShapes mem fields slots) : fields.length = slots.length := by
  induction fields generalizing slots with
  | nil =>
    cases slots with
    | nil => rfl
    | cons slot slots => exact (not_haveShapes_nil_cons h).elim
  | cons field fields ih =>
    cases slots with
    | nil => exact (not_haveShapes_cons_nil h).elim
    | cons slot slots =>
      rw [HaveShapes] at h
      rw [List.length_cons, List.length_cons, ih h.2.2.2]

theorem AllFlat.getElem : ∀ {slots : List Slot}, AllFlat slots → ∀ {i : Nat} {slot : Slot},
    slots[i]? = some slot → slot.Flat
  | [], _, _, _, h => absurd h (by simp)
  | _ :: _, hs, 0, _, h => by
    rw [AllFlat] at hs
    obtain rfl := Option.some.inj h
    exact hs.1
  | _ :: _, hs, i + 1, _, h => by
    rw [AllFlat] at hs
    exact hs.2.getElem h

theorem AllEnd.getElem : ∀ {slots : List Slot}, AllEnd slots → ∀ {i : Nat} {slot : Slot},
    slots[i]? = some slot → slot.Ends
  | [], _, _, _, h => absurd h (by simp)
  | _ :: _, hs, 0, _, h => by
    rw [AllEnd] at hs
    obtain rfl := Option.some.inj h
    exact hs.1
  | _ :: _, hs, i + 1, _, h => by
    rw [AllEnd] at hs
    exact hs.2.getElem h

/-! ## What `pb_encode` writes -/

mutual

theorem spellsData_wireData : ∀ {field : PbField P} {slot : Slot}, HasShape mem field slot →
    slot.Flat → slot.has = true → SpellsData mem field slot.data (wireData mem field slot)
  | _, .chars _, _, _, _ => by
    rw [wireData]
    exact .string
  | _, .uint _, _, _, _ => by
    rw [wireData]
    exact .uvarint
  | field, .struct members, h, hflat, _ => by
    rw [HasShape] at h
    rw [Slot.Flat] at hflat
    cases hptr : field.ptr with
    | none =>
      rw [hptr] at h
      exact h.2.elim
    | some ptr =>
      rw [hptr] at h
      obtain ⟨read, hread, hall, -⟩ := spellsFields_wire (k := 0) h.2.1 hflat
        (fun i => by rw [Nat.zero_add]) (fun i => by rw [Nat.zero_add])
      rw [wireData, hptr]
      exact .submessage hptr hread (fun i slot hi hhas => Nat.zero_add i ▸ hall i slot hi hhas) h.2.2
  | field, .optional has member, h, hflat, hhas => by
    rw [HasShape] at h
    rw [Slot.Flat] at hflat
    have hmember : member.has = true ∧ member.data = member := by
      cases member with
      | optional => exact absurd hflat.1 (by simp [Slot.htype])
      | _ => exact ⟨rfl, rfl⟩
    have hdata := spellsData_wireData h hflat.2 hmember.1
    rw [hmember.2] at hdata
    rw [wireData]
    exact hdata

/-- From the field at `k` on. -/
theorem spellsFields_wire {fields : List (PbField P)} {slots : List Slot} : ∀ {post : List (PbField P)}
    {rest : List Slot} {k : Nat}, HaveShapes mem post rest → AllFlat rest →
    (∀ i, fields[k + i]? = post[i]?) → (∀ i, slots[k + i]? = rest[i]?) →
    ∃ read, SpellsFields (SpellsData mem) read fields slots (wire mem post rest) ∧
      (∀ i slot, rest[i]? = some slot → slot.has = true → k + i ∈ read) ∧ ∀ i ∈ read, k ≤ i
  | [], [], k, _, _, _, _ => by
    refine ⟨[], ?_, fun i slot h => absurd h (by simp), fun i h => absurd h List.not_mem_nil⟩
    rw [wire]
    · exact .nil
    · simp
  | f :: post, slot :: rest, k, hsh, hflat, hf, hs => by
    rw [HaveShapes] at hsh
    obtain ⟨-, -, hm, hrest⟩ := hsh
    rw [AllFlat] at hflat
    have hshift : ∀ i, k + 1 + i = k + (i + 1) := fun i => by omega
    obtain ⟨read, hread, hall, hge⟩ := spellsFields_wire (k := k + 1) hrest hflat.2
      (fun i => by rw [hshift, hf]; rfl) (fun i => by rw [hshift, hs]; rfl)
    rw [wire]
    cases hhas : slot.has with
    | true =>
      refine ⟨k :: read, ?_, fun i s hi hs => ?_, fun i hi => ?_⟩
      · rw [if_pos rfl, List.append_assoc]
        exact .field (hf 0) (hs 0) hhas (fun hk => absurd (hge k hk) (by omega))
          (spellsData_wireData hm hflat.1 hhas) hread
      · cases i with
        | zero => exact List.mem_cons_self
        | succ i => exact List.mem_cons_of_mem k (hshift i ▸ hall i s hi hs)
      · rcases List.mem_cons.mp hi with rfl | hi
        · exact Nat.le_refl _
        · exact Nat.le_of_succ_le (hge i hi)
    | false =>
      refine ⟨read, ?_, fun i s hi hs => ?_, fun i hi => Nat.le_of_succ_le (hge i hi)⟩
      · rw [if_neg Bool.false_ne_true, List.nil_append]
        exact hread
      · cases i with
        | zero =>
          obtain rfl := Option.some.inj hi
          exact absurd (hhas.symm.trans hs) Bool.false_ne_true
        | succ i => exact hshift i ▸ hall i s hi hs
  | [], _ :: _, _, h, _, _, _ => (not_haveShapes_nil_cons h).elim
  | _ :: _, [], _, h, _, _, _ => (not_haveShapes_cons_nil h).elim

end

/-- `pb_encode` spells the message. -/
theorem spellsMessage_wire (hsh : HaveShapes mem fields slots) (hflat : AllFlat slots) :
    SpellsMessage mem fields slots (wire mem fields slots) := by
  obtain ⟨read, hread, hall, -⟩ := spellsFields_wire (k := 0) hsh hflat
    (fun i => by rw [Nat.zero_add]) (fun i => by rw [Nat.zero_add])
  exact ⟨read, hread, fun i slot hi hhas => Nat.zero_add i ▸ hall i slot hi hhas⟩

end EmbeddedTestbench.Nanopb
