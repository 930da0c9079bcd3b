import EmbeddedTestbench.Nanopb.Merge

/-!
# `pb_decode` undoes `pb_encode`, without submessages

What `Merge.lean` says of the tables of required strings and integers: every message of `hid.proto`
but `UnionMessage`. The struct that comes out is `received`: its integers are those that went in, and
a string is the C string that went in, padded with zeros.

Headline: **`pbDecode_wire`**: a window that holds the wire format of a message decodes to that
message, and is used up.
-/

namespace EmbeddedTestbench.Nanopb

open IStream EmbeddedTestbench.Lib

variable {P : Type}

/-- A table of required scalars. -/
structure LeafTable (fields : List (PbField P)) : Prop where
  required : ∀ f ∈ fields, f.htype = .required
  scalar : ∀ f ∈ fields, f.ltype ≠ .submessage
  tags : (fields.map PbField.tag).Nodup
  tag_pos : ∀ f ∈ fields, 0 < f.tag

/-- A string is terminated inside its array. -/
def Slot.Terminated : Slot → Prop
  | .chars a => 0 ∈ a
  | _ => True

/-- What the receiver's struct holds: strings are padded with zeros. -/
def received : Slot → Slot
  | .chars a => .chars (cString a ++ List.replicate (a.length - (cString a).length) 0)
  | slot => slot

/-- The default of a scalar field. -/
def zeroSlot (field : PbField P) : Slot :=
  match field.ltype with
  | .string => .chars (List.replicate field.dataSize 0)
  | .uvarint => .uint 0
  | .submessage => .struct []

variable {mem : P → List (PbField P)} {fields : List (PbField P)} {field : PbField P}
  {slots dest : List Slot}

/-! ## Defaults -/

theorem pbFieldSetToDefault_scalar (hs : field.ltype ≠ .submessage) {slot : Slot}
    (hr : slot.htype = .required) (h : HasShape mem field slot) :
    pbFieldSetToDefault mem field slot = zeroSlot field := by
  unfold zeroSlot
  cases slot with
  | chars a =>
    rw [HasShape] at h
    rw [pbFieldSetToDefault, h.1]
  | uint v =>
    rw [HasShape] at h
    rw [pbFieldSetToDefault, h.1]
  | struct ms =>
    rw [HasShape] at h
    exact absurd h.1 hs
  | optional has member => exact absurd hr (by simp [Slot.htype])

theorem pbMessageSetToDefaults_leaf : ∀ {fields : List (PbField P)} {slots : List Slot},
    (∀ f ∈ fields, f.htype = .required) → (∀ f ∈ fields, f.ltype ≠ .submessage) →
    HaveShapes mem fields slots → pbMessageSetToDefaults mem fields slots = fields.map zeroSlot
  | [], [], _, _, _ => by
    rw [pbMessageSetToDefaults] <;> simp
  | f :: fields, slot :: slots, hreq, hsc, h => by
    rw [HaveShapes] at h
    obtain ⟨-, hh, hm, hrest⟩ := h
    rw [pbMessageSetToDefaults, List.map_cons,
      pbFieldSetToDefault_scalar (hsc f List.mem_cons_self)
        (hh.symm.trans (hreq f List.mem_cons_self)) hm,
      pbMessageSetToDefaults_leaf (fun g hg => hreq g (List.mem_cons_of_mem f hg))
        (fun g hg => hsc g (List.mem_cons_of_mem f hg)) hrest]
  | [], _ :: _, _, _, h => (not_haveShapes_nil_cons h).elim
  | _ :: _, [], _, _, h => (not_haveShapes_cons_nil h).elim

/-! ## Lengths -/

/-- A key has at most five bytes, an integer ten. -/
theorem wire_length_le : ∀ {fields : List (PbField P)} {slots : List Slot},
    (∀ f ∈ fields, f.htype = .required) → (∀ f ∈ fields, f.ltype ≠ .submessage) →
    HaveShapes mem fields slots →
    (wire mem fields slots).length ≤ (fields.map fun f => f.dataSize + 15).sum
  | f :: fields, slot :: slots, hreq, hsc, h => by
    rw [HaveShapes] at h
    obtain ⟨⟨htag, hsize⟩, hh, hm, hrest⟩ := h
    have ih := wire_length_le (fun g hg => hreq g (List.mem_cons_of_mem f hg))
      (fun g hg => hsc g (List.mem_cons_of_mem f hg)) hrest
    have hkey := keyBytes_length_le htag
    have hdata : (wireData mem f slot).length ≤ f.dataSize + 10 := by
      cases slot with
      | chars a =>
        rw [HasShape] at hm
        have hle := cString_length_le a
        have hlt : (cString a).length < 2 ^ 32 := by omega
        have := lengthPrefixed_length_le hlt
        rw [wireData]
        omega
      | uint v =>
        have := Base128.encode_length_le 9 v.toNat (v.toNat_lt.trans_le (by decide))
        rw [wireData]
        omega
      | struct ms =>
        rw [HasShape] at hm
        exact absurd hm.1 (hsc f List.mem_cons_self)
      | optional has member =>
        exact absurd (hh.symm.trans (hreq f List.mem_cons_self)) (by simp [Slot.htype])
    rw [wire, List.map_cons, List.sum_cons, List.length_append]
    split_ifs
    · rw [List.length_append]
      omega
    · rw [List.length_nil]
      omega
  | [], [], _, _, _ => by
    rw [wire] <;> simp
  | [], _ :: _, _, _, h => (not_haveShapes_nil_cons h).elim
  | _ :: _, [], _, _, h => (not_haveShapes_cons_nil h).elim

/-! ## Members -/

/-- A string or an integer. -/
def Slot.Scalar (slot : Slot) : Prop := (∃ a, slot = .chars a) ∨ ∃ v, slot = .uint v

theorem LeafTable.scalars (h : LeafTable fields) (hsh : HaveShapes mem fields slots) :
    ∀ slot ∈ slots, slot.Scalar := by
  intro slot hslot
  obtain ⟨i, hi⟩ := List.getElem?_of_mem hslot
  obtain ⟨f, hf, -, hh, hm⟩ := hsh.getElem hi
  have hmem := List.mem_of_getElem? hf
  cases slot with
  | chars a => exact Or.inl ⟨a, rfl⟩
  | uint v => exact Or.inr ⟨v, rfl⟩
  | struct ms =>
    rw [HasShape] at hm
    exact absurd hm.1 (h.scalar f hmem)
  | optional has member => exact absurd (hh.symm.trans (h.required f hmem)) (by simp [Slot.htype])

theorem allFlat_of_scalars (h : ∀ slot ∈ slots, slot.Scalar) : AllFlat slots := by
  induction slots with
  | nil => trivial
  | cons slot slots ih =>
    rw [List.forall_mem_cons] at h
    rw [AllFlat]
    refine ⟨?_, ih h.2⟩
    rcases h.1 with ⟨a, rfl⟩ | ⟨v, rfl⟩ <;> trivial

theorem allEnd_of_scalars (h : ∀ slot ∈ slots, slot.Scalar)
    (hterm : ∀ slot ∈ slots, slot.Terminated) : AllEnd slots := by
  induction slots with
  | nil => trivial
  | cons slot slots ih =>
    rw [List.forall_mem_cons] at h hterm
    rw [AllEnd]
    refine ⟨?_, ih h.2 hterm.2⟩
    rcases h.1 with ⟨a, rfl⟩ | ⟨v, rfl⟩
    · exact hterm.1
    · trivial

/-- What comes back of strings and integers. -/
theorem receivedMessage_leaf :
    ∀ {fields : List (PbField P)} {slots : List Slot}, (∀ f ∈ fields, f.htype = .required) →
      (∀ f ∈ fields, f.ltype ≠ .submessage) → HaveShapes mem fields slots →
      receivedMessage mem fields slots = slots.map received
  | [], [], _, _, _ => by
    rw [receivedMessage] <;> simp
  | f :: fields, slot :: slots, hreq, hsc, h => by
    rw [HaveShapes] at h
    obtain ⟨-, hh, hm, hrest⟩ := h
    have hslot : receivedData mem f slot = received slot := by
      cases slot with
      | struct ms =>
        rw [HasShape] at hm
        exact absurd hm.1 (hsc f List.mem_cons_self)
      | optional =>
        exact absurd (hh.symm.trans (hreq f List.mem_cons_self)) (by simp [Slot.htype])
      | chars a => rw [receivedData, received]
      | uint v =>
        rw [receivedData, received]
        simp
    rw [receivedMessage, List.map_cons, hslot,
      receivedMessage_leaf (fun g hg => hreq g (List.mem_cons_of_mem f hg))
        (fun g hg => hsc g (List.mem_cons_of_mem f hg)) hrest]
  | [], _ :: _, _, _, h => (not_haveShapes_nil_cons h).elim
  | _ :: _, [], _, _, h => (not_haveShapes_cons_nil h).elim

/-! ## The whole message -/

/-- **`pb_decode` undoes `pb_encode`**: a window that holds a message decodes to it, whatever was
in the struct, and is used up. -/
theorem pbDecode_wire (hmem : ∀ ptr, Searchable (mem ptr)) (hleaf : LeafTable fields)
    (hdest : HaveShapes mem fields dest) (hsh : HaveShapes mem fields slots)
    (hterm : ∀ s ∈ slots, s.Terminated) (t : List UInt8) (e : Option String) :
    pbDecode mem fields dest (window (wire mem fields slots) t e)
      = ((true, slots.map received), window [] t e) := by
  have hflat := allFlat_of_scalars (hleaf.scalars hsh)
  rw [← receivedMessage_leaf hleaf.required hleaf.scalar hsh]
  exact pbDecode_wire_received hmem ⟨hleaf.tags, hleaf.tag_pos⟩ hsh hflat
    (allEnd_of_scalars (hleaf.scalars hsh) hterm)
    (sameType_of_haveShapes hdest hsh (allFlat_of_scalars (hleaf.scalars hdest)) hflat) t e

end EmbeddedTestbench.Nanopb
