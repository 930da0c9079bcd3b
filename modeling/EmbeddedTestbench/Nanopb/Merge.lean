import EmbeddedTestbench.Nanopb.AnyOrder

/-!
# What a message makes of a struct (`pb_decode.c`)

`pb_decode_noinit` writes the fields that come over what the struct has, and a submessage is merged
into the one that is there. `mergedMessage` is the struct that comes of it, and `receivedMessage`
what `pb_decode` makes, which starts from the defaults. Two structs are of the same type when they
are the same once all of their memory is zero.

Headlines:
* **`pbDecodeNoinit_merges`**: whatever spells a message is merged into the struct.
* **`pbDecode_spells`**: so it decodes to that message, whatever was in the struct before.
* **`pbDecode_append`**: one message behind the other is the second merged into the first.
* `wire_received`: what was received is sent in the same form.
-/

namespace EmbeddedTestbench.Nanopb

open IStream EmbeddedTestbench.Lib

variable {P : Type}

/-! ## Structs of the same type -/

mutual

/-- The member with zeros for its memory. -/
def Slot.zeroed : Slot → Slot
  | .chars a => .chars (List.replicate a.length 0)
  | .uint _ => .uint 0
  | .struct members => .struct (allZeroed members)
  | .optional _ member => .optional false member.zeroed

def allZeroed : List Slot → List Slot
  | [] => []
  | slot :: slots => slot.zeroed :: allZeroed slots

end

/-- Two structs of the same type. -/
def SameType (as bs : List Slot) : Prop := allZeroed as = allZeroed bs

theorem allZeroed_eq : ∀ slots : List Slot, allZeroed slots = slots.map Slot.zeroed
  | [] => by rw [allZeroed, List.map_nil]
  | slot :: slots => by rw [allZeroed, allZeroed_eq slots, List.map_cons]

mutual

theorem Slot.zeroed_zeroed : ∀ slot : Slot, slot.zeroed.zeroed = slot.zeroed
  | .chars a => by
    rw [Slot.zeroed, Slot.zeroed, List.length_replicate]
  | .uint v => by
    rw [Slot.zeroed, Slot.zeroed]
  | .struct members => by
    rw [Slot.zeroed, Slot.zeroed, allZeroed_allZeroed members]
  | .optional has member => by
    rw [Slot.zeroed, Slot.zeroed, Slot.zeroed_zeroed member]

theorem allZeroed_allZeroed : ∀ slots : List Slot, allZeroed (allZeroed slots) = allZeroed slots
  | [] => by
    rw [allZeroed, allZeroed]
  | slot :: slots => by
    rw [allZeroed, allZeroed, slot.zeroed_zeroed, allZeroed_allZeroed slots]

end

@[simp] theorem Slot.zeroed_htype (slot : Slot) : slot.zeroed.htype = slot.htype := by
  cases slot <;> rw [Slot.zeroed] <;> rfl

theorem Slot.htype_eq_of_zeroed {a b : Slot} (h : a.zeroed = b.zeroed) : a.htype = b.htype := by
  rw [← a.zeroed_htype, h, b.zeroed_htype]

/-- The members behind the flags are of the same type too. -/
theorem Slot.data_zeroed {a b : Slot} (h : a.zeroed = b.zeroed) : a.data.zeroed = b.data.zeroed := by
  have hh := Slot.htype_eq_of_zeroed h
  cases a with
  | optional has a =>
    cases b with
    | optional has' b =>
      rw [Slot.zeroed, Slot.zeroed] at h
      exact (Slot.optional.inj h).2
    | _ => exact absurd hh (by simp [Slot.htype])
  | _ =>
    cases b with
    | optional => exact absurd hh (by simp [Slot.htype])
    | _ => exact h

theorem SameType.getElem {as bs : List Slot} (h : SameType as bs) {i : Nat} {b : Slot}
    (hb : bs[i]? = some b) : ∃ a, as[i]? = some a ∧ a.zeroed = b.zeroed := by
  have hi : (as.map Slot.zeroed)[i]? = (bs.map Slot.zeroed)[i]? := by
    rw [← allZeroed_eq, ← allZeroed_eq, h]
  rw [List.getElem?_map, List.getElem?_map, hb, Option.map_some, Option.map_eq_some_iff] at hi
  exact hi

theorem SameType.length_eq {as bs : List Slot} (h : SameType as bs) : as.length = bs.length := by
  rw [SameType, allZeroed_eq, allZeroed_eq] at h
  simpa using congrArg List.length h

/-! ## Defaults -/

variable {mem : P → List (PbField P)} {fields : List (PbField P)} {field : PbField P}
  {slot : Slot} {slots : List Slot}

mutual

/-- The defaults of a struct are zeros, whatever was in it. -/
theorem setToDefault_eq : ∀ {field : PbField P} {a slot : Slot}, HasShape mem field slot →
    a.zeroed = slot.zeroed → pbFieldSetToDefault mem field a = slot.zeroed
  | field, a, .chars b, hsh, h => by
    rw [HasShape] at hsh
    rw [Slot.zeroed] at h ⊢
    cases a with
    | chars a => rw [pbFieldSetToDefault, hsh.2]
    | _ => exact absurd h (by simp [Slot.zeroed])
  | field, a, .uint v, _, h => by
    rw [Slot.zeroed] at h ⊢
    cases a with
    | uint v => rw [pbFieldSetToDefault]
    | _ => exact absurd h (by simp [Slot.zeroed])
  | field, a, .struct members, hsh, h => by
    rw [HasShape] at hsh
    rw [Slot.zeroed] at h ⊢
    cases a with
    | struct as =>
      rw [Slot.zeroed] at h
      cases hptr : field.ptr with
      | none =>
        rw [hptr] at hsh
        exact hsh.2.elim
      | some ptr =>
        rw [hptr] at hsh
        rw [pbFieldSetToDefault, hptr]
        exact congrArg Slot.struct (setToDefaults_eq hsh.2.1 (Slot.struct.inj h))
    | _ => exact absurd h (by simp [Slot.zeroed])
  | field, a, .optional has member, hsh, h => by
    rw [HasShape] at hsh
    rw [Slot.zeroed] at h ⊢
    cases a with
    | optional has' a =>
      rw [Slot.zeroed] at h
      rw [pbFieldSetToDefault, setToDefault_eq hsh (Slot.optional.inj h).2]
    | _ => exact absurd h (by simp [Slot.zeroed])

theorem setToDefaults_eq : ∀ {fields : List (PbField P)} {as slots : List Slot},
    HaveShapes mem fields slots → SameType as slots →
    pbMessageSetToDefaults mem fields as = allZeroed slots
  | [], [], [], _, _ => by
    rw [allZeroed, pbMessageSetToDefaults]
    simp
  | field :: fields, a :: as, slot :: slots, hsh, h => by
    rw [HaveShapes] at hsh
    rw [SameType, allZeroed, allZeroed, List.cons.injEq] at h
    rw [pbMessageSetToDefaults, allZeroed, setToDefault_eq hsh.2.2.1 h.1,
      setToDefaults_eq hsh.2.2.2 h.2]
  | _, [], _ :: _, _, h => absurd h.length_eq (by simp)
  | _, _ :: _, [], _, h => absurd h.length_eq (by simp)
  | [], _, _ :: _, h, _ => (not_haveShapes_nil_cons h).elim
  | _ :: _, _, [], h, _ => (not_haveShapes_cons_nil h).elim

end

mutual

/-- Two structs of one table are of the same type. -/
theorem sameType_of_hasShape : ∀ {field : PbField P} {a b : Slot}, HasShape mem field a →
    HasShape mem field b → a.Flat → b.Flat → a.htype = b.htype → a.zeroed = b.zeroed
  | field, .chars a, b, ha, hb, _, _, hh => by
    rw [HasShape] at ha
    cases b with
    | chars b =>
      rw [HasShape] at hb
      rw [Slot.zeroed, Slot.zeroed, ha.2, hb.2]
    | optional => exact absurd hh (by simp [Slot.htype])
    | _ =>
      rw [HasShape] at hb
      exact absurd (ha.1.symm.trans hb.1) (by decide)
  | field, .uint a, b, ha, hb, _, _, hh => by
    rw [HasShape] at ha
    cases b with
    | uint b => rw [Slot.zeroed, Slot.zeroed]
    | optional => exact absurd hh (by simp [Slot.htype])
    | _ =>
      rw [HasShape] at hb
      exact absurd (ha.1.symm.trans hb.1) (by decide)
  | field, .struct as, b, ha, hb, hfa, hfb, hh => by
    rw [HasShape] at ha
    cases b with
    | struct bs =>
      rw [HasShape] at hb
      rw [Slot.Flat] at hfa hfb
      cases hptr : field.ptr with
      | none =>
        rw [hptr] at ha
        exact ha.2.elim
      | some ptr =>
        rw [hptr] at ha hb
        rw [Slot.zeroed, Slot.zeroed]
        exact congrArg Slot.struct (sameType_of_haveShapes ha.2.1 hb.2.1 hfa hfb)
    | optional => exact absurd hh (by simp [Slot.htype])
    | _ =>
      rw [HasShape] at hb
      exact absurd (ha.1.symm.trans hb.1) (by decide)
  | field, .optional _ a, b, ha, hb, hfa, hfb, hh => by
    cases b with
    | optional _ b =>
      rw [HasShape] at ha hb
      rw [Slot.Flat] at hfa hfb
      rw [Slot.zeroed, Slot.zeroed,
        sameType_of_hasShape ha hb hfa.2 hfb.2 (hfa.1.trans hfb.1.symm)]
    | _ => exact absurd hh (by simp [Slot.htype])

theorem sameType_of_haveShapes : ∀ {fields : List (PbField P)} {as bs : List Slot},
    HaveShapes mem fields as → HaveShapes mem fields bs → AllFlat as → AllFlat bs → SameType as bs
  | [], [], [], _, _, _, _ => rfl
  | f :: fields, a :: as, b :: bs, ha, hb, hfa, hfb => by
    rw [HaveShapes] at ha hb
    rw [AllFlat] at hfa hfb
    rw [SameType, allZeroed, allZeroed,
      sameType_of_hasShape ha.2.2.1 hb.2.2.1 hfa.1 hfb.1 (ha.2.1.symm.trans hb.2.1),
      sameType_of_haveShapes ha.2.2.2 hb.2.2.2 hfa.2 hfb.2]
  | [], _ :: _, _, h, _, _, _ => (not_haveShapes_nil_cons h).elim
  | [], [], _ :: _, _, h, _, _ => (not_haveShapes_nil_cons h).elim
  | _ :: _, [], _, h, _, _, _ => (not_haveShapes_cons_nil h).elim
  | _ :: _, _ :: _, [], _, h, _, _ => (not_haveShapes_cons_nil h).elim

end

/-! ## The struct that comes of it -/

mutual

/-- A member into which data was read: an array keeps what stands behind the string and its
terminator, and a submessage the members that did not come. -/
def mergedData (mem : P → List (PbField P)) (field : PbField P) (old : Slot) : Slot → Slot
  | .chars a =>
    .chars ((cString a ++ old.bytes.drop (cString a).length).set (cString a).length 0)
  | .uint v => .uint v
  | .struct members => match field.ptr with
    | some ptr => .struct (mergedMessage mem (mem ptr) old.members members)
    | none => .struct members
  | .optional has member =>
    if has then .optional true (mergedData mem field old.data member) else old

def mergedMessage (mem : P → List (PbField P)) :
    List (PbField P) → List Slot → List Slot → List Slot
  | field :: fields, old :: olds, slot :: slots =>
    mergedData mem field old slot :: mergedMessage mem fields olds slots
  | _, olds, _ => olds

end

mutual

/-- What the receiver has of a member: strings are padded with zeros, and what was not sent has its
default. -/
def receivedData (mem : P → List (PbField P)) (field : PbField P) : Slot → Slot
  | .chars a => .chars (cString a ++ List.replicate (a.length - (cString a).length) 0)
  | .uint v => .uint v
  | .struct members => match field.ptr with
    | some ptr => .struct (receivedMessage mem (mem ptr) members)
    | none => .struct members
  | .optional has member => .optional has
      (if has then receivedData mem field member else pbFieldSetToDefault mem field member)

def receivedMessage (mem : P → List (PbField P)) : List (PbField P) → List Slot → List Slot
  | field :: fields, slot :: slots =>
    receivedData mem field slot :: receivedMessage mem fields slots
  | _, slots => slots

end

theorem getElem_merged : ∀ {fields : List (PbField P)} {olds slots : List Slot} {i : Nat}
    {f : PbField P} {old slot : Slot}, fields[i]? = some f → olds[i]? = some old →
    slots[i]? = some slot → (mergedMessage mem fields olds slots)[i]? = some (mergedData mem f old slot)
  | [], _, _, _, _, _, _, h, _, _ => absurd h (by simp)
  | _ :: _, [], _, _, _, _, _, _, h, _ => absurd h (by simp)
  | _ :: _, _ :: _, [], _, _, _, _, _, _, h => absurd h (by simp)
  | f :: _, old :: _, slot :: _, 0, _, _, _, hf, ho, hs => by
    obtain rfl := Option.some.inj hf
    obtain rfl := Option.some.inj ho
    obtain rfl := Option.some.inj hs
    rw [mergedMessage]
    rfl
  | _ :: _, _ :: _, _ :: _, i + 1, _, _, _, hf, ho, hs => by
    rw [mergedMessage]
    exact getElem_merged hf ho hs

theorem length_merged : ∀ (fields : List (PbField P)) (olds slots : List Slot),
    (mergedMessage mem fields olds slots).length = olds.length
  | [], _, _ => by
    rw [mergedMessage]
    simp
  | _ :: _, [], _ => by
    rw [mergedMessage]
    simp
  | _ :: _, _ :: _, [] => by
    rw [mergedMessage]
    simp
  | _ :: fields, _ :: olds, _ :: slots => by
    rw [mergedMessage, List.length_cons, length_merged fields olds slots, List.length_cons]

/-- A member that was not sent stays. -/
theorem mergedData_of_not_has (hhas : slot.has = false) (old : Slot) :
    mergedData mem field old slot = old := by
  cases slot with
  | optional has member =>
    obtain rfl : has = false := hhas
    rw [mergedData, if_neg Bool.false_ne_true]
  | _ => exact absurd hhas (by simp [Slot.has])

mutual

/-- The struct keeps its type. -/
theorem zeroed_mergedData : ∀ {field : PbField P} {old slot : Slot}, HasShape mem field slot →
    old.zeroed = slot.zeroed → (mergedData mem field old slot).zeroed = slot.zeroed
  | field, old, .chars a, _, h => by
    rw [Slot.zeroed] at h
    cases old with
    | chars o =>
      rw [Slot.zeroed, Slot.chars.injEq] at h
      have hlen := congrArg List.length h
      rw [List.length_replicate, List.length_replicate] at hlen
      have hle := cString_length_le a
      rw [mergedData, Slot.zeroed, Slot.zeroed, List.length_set, List.length_append,
        List.length_drop, Slot.bytes, hlen, Nat.add_sub_cancel' hle]
    | _ => exact absurd h (by simp [Slot.zeroed])
  | field, old, .uint v, _, _ => by
    rw [mergedData]
  | field, old, .struct members, hsh, h => by
    rw [HasShape] at hsh
    rw [Slot.zeroed] at h
    cases old with
    | struct olds =>
      rw [Slot.zeroed] at h
      cases hptr : field.ptr with
      | none =>
        rw [hptr] at hsh
        exact hsh.2.elim
      | some ptr =>
        rw [hptr] at hsh
        rw [mergedData, hptr, Slot.zeroed, Slot.zeroed]
        exact congrArg Slot.struct (sameType_merged hsh.2.1 (Slot.struct.inj h))
    | _ => exact absurd h (by simp [Slot.zeroed])
  | field, old, .optional has member, hsh, h => by
    rw [HasShape] at hsh
    cases has with
    | false => rwa [mergedData, if_neg Bool.false_ne_true]
    | true =>
      have hdata := Slot.data_zeroed h
      rw [mergedData, if_pos rfl, Slot.zeroed, Slot.zeroed, zeroed_mergedData hsh hdata]

theorem sameType_merged : ∀ {fields : List (PbField P)} {olds slots : List Slot},
    HaveShapes mem fields slots → SameType olds slots →
    SameType (mergedMessage mem fields olds slots) slots
  | [], [], [], _, _ => by
    rw [mergedMessage]
    · rfl
    · simp
  | field :: fields, old :: olds, slot :: slots, hsh, h => by
    rw [HaveShapes] at hsh
    rw [SameType, allZeroed, allZeroed, List.cons.injEq] at h
    rw [SameType, mergedMessage, allZeroed, allZeroed, zeroed_mergedData hsh.2.2.1 h.1,
      sameType_merged hsh.2.2.2 h.2]
  | _, [], _ :: _, _, h => absurd h.length_eq (by simp)
  | _, _ :: _, [], _, h => absurd h.length_eq (by simp)
  | [], _, _ :: _, h, _ => (not_haveShapes_nil_cons h).elim
  | _ :: _, _, [], h, _ => (not_haveShapes_cons_nil h).elim

end

/-- A string over zeros is padded with them. -/
theorem set_append_zeros (c : List UInt8) (n : Nat) :
    (c ++ (List.replicate n 0).drop c.length).set c.length 0
      = c ++ List.replicate (n - c.length) 0 := by
  rw [List.drop_replicate, List.set_append_right _ _ (Nat.le_refl _), Nat.sub_self]
  cases n - c.length <;> rfl

mutual

theorem mergedData_zeroed : ∀ {field : PbField P} {slot : Slot}, HasShape mem field slot →
    mergedData mem field slot.zeroed slot = receivedData mem field slot
  | field, .chars a, _ => by
    rw [Slot.zeroed, mergedData, receivedData, Slot.bytes, set_append_zeros]
  | field, .uint v, _ => by
    rw [mergedData, receivedData]
  | field, .struct members, hsh => by
    rw [HasShape] at hsh
    cases hptr : field.ptr with
    | none =>
      rw [hptr] at hsh
      exact hsh.2.elim
    | some ptr =>
      rw [hptr] at hsh
      rw [Slot.zeroed, mergedData, receivedData, hptr]
      exact congrArg Slot.struct (mergedMessage_zeroed hsh.2.1)
  | field, .optional has member, hsh => by
    rw [HasShape] at hsh
    rw [Slot.zeroed, mergedData, receivedData]
    cases has with
    | false => rw [if_neg Bool.false_ne_true, if_neg Bool.false_ne_true, setToDefault_eq hsh rfl]
    | true => rw [if_pos rfl, if_pos rfl, Slot.data, mergedData_zeroed hsh]

/-- What is merged into zeros is what is received. -/
theorem mergedMessage_zeroed : ∀ {fields : List (PbField P)} {slots : List Slot},
    HaveShapes mem fields slots →
    mergedMessage mem fields (allZeroed slots) slots = receivedMessage mem fields slots
  | [], [], _ => by
    rw [allZeroed, mergedMessage, receivedMessage] <;> simp
  | field :: fields, slot :: slots, hsh => by
    rw [HaveShapes] at hsh
    rw [allZeroed, mergedMessage, receivedMessage, mergedData_zeroed hsh.2.2.1,
      mergedMessage_zeroed hsh.2.2.2]
  | [], _ :: _, h => (not_haveShapes_nil_cons h).elim
  | _ :: _, [], h => (not_haveShapes_cons_nil h).elim

end

/-! ## What `pb_decode_noinit` makes of the bytes -/

/-- A string that fits with its terminator is data of its field. -/
theorem isData_string {a : List UInt8} (hsize : field.dataSize < 2 ^ 32)
    (hsh : HasShape mem field (.chars a)) (hend : 0 ∈ a) (old : Slot) :
    IsData mem field old (lengthPrefixed (cString a)) (mergedData mem field old (.chars a)) := by
  rw [HasShape] at hsh
  obtain ⟨hl, hlen⟩ := hsh
  have hlt := cString_length_lt hend
  have hsz : (UInt32.ofNat (cString a).length).toNat = (cString a).length := by
    rw [UInt32.toNat_ofNat', Nat.mod_eq_of_lt (by omega)]
  rw [mergedData]
  exact .string hl (pbDecodeVarint32_encode (by omega)) hsz.symm (by omega) (by omega)

/-- So is an integer of the field's size. -/
theorem isData_uvarint {v : UInt64} (hsh : HasShape mem field (.uint v)) (old : Slot) :
    IsData mem field old (Base128.encode v.toNat) (mergedData mem field old (.uint v)) := by
  rw [HasShape] at hsh
  obtain ⟨hl, hvalid, hv⟩ := hsh
  have hread := pbDecodeVarint_encode v.toNat_lt
  rw [UInt64.ofNat_toNat] at hread
  rw [mergedData]
  exact .uvarint hl hread hvalid hv

/-- So is a submessage, where what it holds are records that merge it into the members that were
there. -/
theorem isData_submessage {ptr : P} {members old : List Slot} {q : List UInt8} {read : List Nat}
    (hl : field.ltype = .submessage) (hptr : field.ptr = some ptr) (hlen : q.length < 2 ^ 32)
    (hrecords : AreRecords mem (mem ptr) old q (mergedMessage mem (mem ptr) old members) read)
    (hrequired : RequiredRead (mem ptr) read) :
    IsData mem field (.struct old) (lengthPrefixed q)
      (mergedData mem field (.struct old) (.struct members)) := by
  have hsub := IsMessage.mk hrecords hrequired (Or.inl ⟨rfl, rfl⟩)
  rw [List.append_nil] at hsub
  have hsize : (UInt32.ofNat q.length).toNat = q.length := by
    rw [UInt32.toNat_ofNat', Nat.mod_eq_of_lt hlen]
  rw [mergedData, hptr]
  exact .submessage hl hptr (pbDecodeVarint32_encode hlen) hsize.symm hsub

/-- The member itself. -/
theorem IsData.isMember {f : PbField P} {p : List UInt8} {old : Slot} (hh : f.htype = old.htype)
    (hsame : old.zeroed = slot.zeroed) (hhas : slot.has = true)
    (h : IsData mem f old.data p (mergedData mem f old.data slot.data)) :
    IsMember mem f old p (mergedData mem f old slot) := by
  have hh' := Slot.htype_eq_of_zeroed hsame
  cases slot with
  | optional has member =>
    obtain rfl : has = true := hhas
    cases old with
    | optional has' old =>
      rw [mergedData, if_pos rfl]
      exact .optional hh h
    | _ => exact absurd hh' (by simp [Slot.htype])
  | _ =>
    cases old with
    | optional => exact absurd hh' (by simp [Slot.htype])
    | _ => exact .plain (fun ho => absurd (hh.symm.trans ho) (by simp [Slot.htype])) h

/-- The member behind the flag has what the member has. -/
theorem Slot.data_props (hsh : HasShape mem field slot) (hflat : slot.Flat) (hends : slot.Ends)
    (hhas : slot.has = true) : HasShape mem field slot.data ∧ slot.data.Flat ∧ slot.data.Ends := by
  cases slot with
  | optional has member =>
    rw [HasShape] at hsh
    rw [Slot.Flat] at hflat
    rw [Slot.Ends] at hends
    exact ⟨hsh, hflat.2, hends hhas⟩
  | chars a => exact ⟨hsh, hflat, hends⟩
  | uint v => exact ⟨hsh, hflat, hends⟩
  | struct ms => exact ⟨hsh, hflat, hends⟩

/-- Records in any order: each member that was read comes from the one that was there, and the
others stay. -/
theorem SpellsFields.areRecords {data : PbField P → Slot → List UInt8 → Prop} {read : List Nat}
    {w : List UInt8} (h : SpellsFields data read fields slots w) (hsearch : Searchable fields)
    (hsh : HaveShapes mem fields slots) {olds news : List Slot} :
    (∀ (i : Nat) (f : PbField P) (slot : Slot) (p : List UInt8), fields[i]? = some f →
      slots[i]? = some slot → slot.has = true → data f slot.data p → p.length < w.length →
      ∃ old new, olds[i]? = some old ∧ news[i]? = some new ∧ IsMember mem f old p new) →
    ∀ dest : List Slot, (∀ i ∈ read, dest[i]? = olds[i]?) →
      ∃ dest', AreRecords mem fields dest w dest' read ∧
        ∀ i, dest'[i]? = if i ∈ read then news[i]? else dest[i]? := by
  induction h with
  | nil => exact fun _ dest _ => ⟨dest, .nil, fun i => by rw [if_neg List.not_mem_nil]⟩
  | @field fields slots i f slot read p q hf hslot hhas hnew hp hq ih =>
    intro hdata dest hdest
    obtain ⟨f', hf', hrange, -, -⟩ := hsh.getElem hslot
    obtain rfl := Option.some.inj (hf.symm.trans hf')
    have hkey := pbDecodeTag_keyBytes hrange (hsearch.tag_pos f (List.mem_of_getElem? hf))
    have hkeylen := List.length_pos_of_ne_nil (keyBytes_ne_nil f)
    have hlen : (keyBytes f ++ (p ++ q)).length = (keyBytes f).length + (p.length + q.length) := by
      rw [List.length_append, List.length_append]
    obtain ⟨old, new, hold, hnews, hmember⟩ := hdata i f slot p hf hslot hhas hp (by omega)
    rw [← hdest i List.mem_cons_self] at hold
    have hi : i < dest.length := (List.getElem?_eq_some_iff.mp hold).1
    obtain ⟨dest', hrecords, hdest'⟩ := ih hsearch hsh
      (fun j g s p' hg hs hhas' hp' hlt => hdata j g s p' hg hs hhas' hp' (by omega))
      (dest.set i new) (fun j hj => by
        have hne : i ≠ j := fun heq => hnew (heq ▸ hj)
        rw [List.getElem?_set_ne hne]
        exact hdest j (List.mem_cons_of_mem i hj))
    refine ⟨dest', .field hkey hf hold hmember hrecords, fun j => ?_⟩
    rw [hdest' j]
    by_cases hj : j ∈ read
    · rw [if_pos hj, if_pos (List.mem_cons_of_mem i hj)]
    · rw [if_neg hj]
      by_cases hij : j = i
      · subst hij
        rw [if_pos List.mem_cons_self, List.getElem?_set_self hi, hnews]
      · rw [if_neg (by simp [hij, hj]), List.getElem?_set_ne (Ne.symm hij)]
  | @foreign fields slots wireType tag read k p q hk hno hp hq ih =>
    intro hdata dest hdest
    obtain ⟨dest', hrecords, hdest'⟩ := ih hsearch hsh
      (fun j g s p' hg hs hhas hp' hlt => hdata j g s p' hg hs hhas hp' (by
        rw [List.length_append, List.length_append]
        omega)) dest hdest
    exact ⟨dest', .skipped hk hno hp hrecords, hdest'⟩

/-- A message of which no required field was left out. -/
theorem AllRead.requiredRead {read : List Nat} (h : AllRead slots read)
    (hsh : HaveShapes mem fields slots) : RequiredRead fields read := by
  intro i hreq _
  have hi := requiredAt_lt hreq
  obtain ⟨slot, hslot⟩ : ∃ slot, slots[i]? = some slot :=
    ⟨_, List.getElem?_eq_getElem (hsh.length_eq ▸ hi)⟩
  obtain ⟨f, hf, -, hh, -⟩ := hsh.getElem hslot
  refine h i slot hslot ?_
  rw [requiredAt, hf, Option.any_some, beq_iff_eq, hh] at hreq
  cases slot with
  | optional => exact absurd hreq (by simp [Slot.htype])
  | _ => rfl

/-- Members that come from the merged struct where they were read and stay where they were not: as
every member that is there was read, they are the merged struct. -/
theorem AllRead.eq_merged {read : List Nat} {olds dest : List Slot} (h : AllRead slots read)
    (hsh : HaveShapes mem fields slots) (hsame : SameType olds slots)
    (hdest : ∀ i, dest[i]? = if i ∈ read then (mergedMessage mem fields olds slots)[i]?
      else olds[i]?) : dest = mergedMessage mem fields olds slots := by
  refine List.ext_getElem? fun i => ?_
  rw [hdest i]
  split_ifs with hi
  · rfl
  · cases hslot : slots[i]? with
    | none =>
      have hge : slots.length ≤ i := List.getElem?_eq_none_iff.mp hslot
      rw [List.getElem?_eq_none (by rwa [hsame.length_eq]),
        List.getElem?_eq_none (by rwa [length_merged, hsame.length_eq])]
    | some slot =>
      obtain ⟨f, hf, -⟩ := hsh.getElem hslot
      obtain ⟨old, hold, -⟩ := hsame.getElem hslot
      have hhas : slot.has = false := by
        by_contra hne
        exact hi (h i slot hslot (by simpa using hne))
      rw [getElem_merged hf hold hslot, hold, mergedData_of_not_has hhas]

/-- **What spells a message are records that merge it into the struct**: by induction on the length,
for submessages. -/
theorem SpellsMessage.areRecords (hmem : ∀ ptr, Searchable (mem ptr)) : ∀ (n : Nat)
    {fields : List (PbField P)} {olds slots : List Slot} {w : List UInt8}, w.length < n →
    Searchable fields → HaveShapes mem fields slots → AllFlat slots → AllEnd slots →
    SameType olds slots → SpellsMessage mem fields slots w →
    ∃ read, AreRecords mem fields olds w (mergedMessage mem fields olds slots) read ∧
      RequiredRead fields read
  | 0, _, _, _, _, hn, _, _, _, _, _, _ => absurd hn (Nat.not_lt_zero _)
  | n + 1, fields, olds, slots, w, hn, hsearch, hsh, hflat, hends, hsame, ⟨read, hread, hall⟩ => by
    have hdata : ∀ (i : Nat) (f : PbField P) (slot : Slot) (p : List UInt8), fields[i]? = some f →
        slots[i]? = some slot → slot.has = true → SpellsData mem f slot.data p →
        p.length < w.length → ∃ old new, olds[i]? = some old ∧
          (mergedMessage mem fields olds slots)[i]? = some new ∧ IsMember mem f old p new := by
      intro i f slot p hf hslot hhas hp hlt
      obtain ⟨f', hf', hrange, hh, hm⟩ := hsh.getElem hslot
      obtain rfl := Option.some.inj (hf.symm.trans hf')
      obtain ⟨old, hold, hzero⟩ := hsame.getElem hslot
      have hholdtype := hh.trans (Slot.htype_eq_of_zeroed hzero).symm
      refine ⟨old, _, hold, getElem_merged hf hold hslot, IsData.isMember hholdtype hzero hhas ?_⟩
      obtain ⟨hshape, hflat', hends'⟩ :=
        Slot.data_props hm (hflat.getElem hslot) (hends.getElem hslot) hhas
      have hdataZero := Slot.data_zeroed hzero
      revert hp hshape hflat' hends' hdataZero
      generalize slot.data = data
      generalize old.data = old
      intro hp hshape hflat' hends' hdataZero
      cases hp with
      | @string _ a =>
        rw [Slot.Ends] at hends'
        exact isData_string hrange.2 hshape hends' old
      | uvarint => exact isData_uvarint hshape old
      | @submessage _ ptr members read' q hptr hq hall' hlen =>
        rw [HasShape, hptr] at hshape
        rw [Slot.Flat] at hflat'
        rw [Slot.Ends] at hends'
        rw [Slot.zeroed] at hdataZero
        have hshort : q.length < n := by
          rw [lengthPrefixed, List.length_append] at hlt
          omega
        cases old with
        | struct oldMembers =>
          rw [Slot.zeroed, Slot.struct.injEq] at hdataZero
          obtain ⟨read'', hrecords, hrequired⟩ := SpellsMessage.areRecords hmem n hshort (hmem ptr)
            hshape.2.1 hflat' hends' hdataZero ⟨read', hq, hall'⟩
          exact isData_submessage hshape.1 hptr hlen hrecords hrequired
        | _ => exact absurd hdataZero (by simp [Slot.zeroed])
    obtain ⟨dest', hrecords, hdest'⟩ := hread.areRecords hsearch hsh hdata olds fun _ _ => rfl
    have heq := hall.eq_merged hsh hsame hdest'
    exact ⟨read, heq ▸ hrecords, hall.requiredRead hsh⟩

/-- Records behind records. -/
theorem AreRecords.append {dest mid dest' : List Slot} {p q : List UInt8} {read read' : List Nat}
    (h : AreRecords mem fields dest p mid read) (h' : AreRecords mem fields mid q dest' read') :
    AreRecords mem fields dest (p ++ q) dest' (read ++ read') := by
  match h with
  | .nil => exact h'
  | .field hk hf hs hm hrest =>
    have := AreRecords.field hk hf hs hm (hrest.append h')
    simpa only [List.append_assoc, List.cons_append] using this
  | .skipped hk hno hp hrest =>
    have := AreRecords.skipped hk hno hp (hrest.append h')
    simpa only [List.append_assoc] using this

/-- **A message is merged into the struct**: with its fields in any order, at every depth, and with
fields between them that the tables do not have. -/
theorem pbDecodeNoinit_merges (hmem : ∀ ptr, Searchable (mem ptr)) (hfields : Searchable fields)
    {slots olds : List Slot} (hsh : HaveShapes mem fields slots) (hflat : AllFlat slots)
    (hends : AllEnd slots) (holds : SameType olds slots) {w : List UInt8}
    (hw : SpellsMessage mem fields slots w) (t : List UInt8) (e : Option String) :
    pbDecodeNoinit mem fields olds (window w t e)
      = ((true, mergedMessage mem fields olds slots), window [] t e) := by
  obtain ⟨read, hrecords, hrequired⟩ := SpellsMessage.areRecords hmem (w.length + 1)
    (Nat.lt_succ_self _) hfields hsh hflat hends holds hw
  have hmessage := IsMessage.mk hrecords hrequired (Or.inl ⟨rfl, rfl⟩)
  rw [List.append_nil] at hmessage
  exact (pbDecodeNoinit_iff (fun ptr => (hmem ptr).tags) hfields.tags).mpr ⟨[], hmessage, rfl⟩

/-- `pb_decode` begins with zeros, whatever was in the struct. -/
theorem pbDecode_eq {slots dest : List Slot} (hsh : HaveShapes mem fields slots)
    (hdest : SameType dest slots) :
    pbDecode mem fields dest = pbDecodeNoinit mem fields (allZeroed slots) := by
  funext s
  rw [pbDecode, setToDefaults_eq hsh hdest]

/-- **Whatever spells a message decodes to it**, whatever was in the struct. -/
theorem pbDecode_spells (hmem : ∀ ptr, Searchable (mem ptr)) (hfields : Searchable fields)
    {slots dest : List Slot} (hsh : HaveShapes mem fields slots) (hflat : AllFlat slots)
    (hends : AllEnd slots) (hdest : SameType dest slots) {w : List UInt8}
    (hw : SpellsMessage mem fields slots w) (t : List UInt8) (e : Option String) :
    pbDecode mem fields dest (window w t e)
      = ((true, receivedMessage mem fields slots), window [] t e) := by
  rw [pbDecode_eq hsh hdest, ← mergedMessage_zeroed hsh]
  exact pbDecodeNoinit_merges hmem hfields hsh hflat hends (allZeroed_allZeroed slots) hw t e

/-- The second field first, and a field that the table does not have between them. -/
theorem pbDecode_spells_swapped :
    let mem : Unit → List (PbField Unit) := fun _ => []
    let fields : List (PbField Unit) :=
      [⟨1, .required, .uvarint, 4, none⟩, ⟨2, .optional, .uvarint, 1, none⟩]
    pbDecode mem fields [.uint 5, .optional false (.uint 6)]
        (window [0x10, 0x09, 0x20, 0x63, 0x08, 0x07] [] none)
      = ((true, [.uint 7, .optional true (.uint 9)]), window [] [] none) := by
  intro mem fields
  let slots : List Slot := [.uint 7, .optional true (.uint 9)]
  have hmem : ∀ ptr, Searchable (mem ptr) := fun _ => ⟨List.nodup_nil, List.forall_mem_nil _⟩
  have hfields : Searchable fields := ⟨show ([1, 2] : List Nat).Nodup by decide, by decide⟩
  have hsh : HaveShapes mem fields slots := by
    simp [HaveShapes, HasShape, fields, slots, Slot.htype, validDataSize, PbField.InRange]
  have hflat : AllFlat slots := by simp [slots, AllFlat, Slot.Flat, Slot.htype]
  have hends : AllEnd slots := by simp [slots, AllEnd, Slot.Ends]
  have hdest : SameType [.uint 5, .optional false (.uint 6)] slots := by
    simp [SameType, slots, allZeroed, Slot.zeroed]
  have hkey : Reads pbDecodeTag [0x20] (.field 0 4) :=
    @pbDecodeTag_reads [0x20] (by decide) (by decide) (by decide)
  have hskip : Reads (fun s => pbSkipField s 0) [0x63] true :=
    @pbSkipVarint_reads [0x63] (by decide)
  have hunlisted : Unlisted fields 4 := ⟨by decide, fun h => absurd h (List.cons_ne_nil _ _)⟩
  have hfirst : SpellsFields (SpellsData mem) [0] fields slots
      (keyBytes fields[0] ++ (Base128.encode 7 ++ [])) :=
    .field (i := 0) rfl (show slots[0]? = some (.uint 7) from rfl) rfl (by decide)
      SpellsData.uvarint .nil
  have hsecond : SpellsFields (SpellsData mem) [1, 0] fields slots (keyBytes fields[1] ++
      (Base128.encode 9 ++ ([(0x20 : UInt8)] ++ ([(0x63 : UInt8)] ++
        (keyBytes fields[0] ++ (Base128.encode 7 ++ [])))))) :=
    .field (i := 1) rfl (show slots[1]? = some (.optional true (.uint 9)) from rfl) rfl (by decide)
      SpellsData.uvarint (.foreign hkey hunlisted hskip hfirst)
  have hall : AllRead slots [1, 0] := fun i slot hslot _ => by
    have hi : i < 2 := (List.getElem?_eq_some_iff.mp hslot).1
    simp only [List.mem_cons, List.not_mem_nil, or_false]
    omega
  have hbytes : keyBytes fields[1] ++ (Base128.encode 9 ++ ([(0x20 : UInt8)] ++
      ([(0x63 : UInt8)] ++ (keyBytes fields[0] ++ (Base128.encode 7 ++ [])))))
        = [0x10, 0x09, 0x20, 0x63, 0x08, 0x07] := by decide +kernel
  have hrun := pbDecode_spells hmem hfields hsh hflat hends hdest ⟨_, hbytes ▸ hsecond, hall⟩ [] none
  simpa [receivedMessage, receivedData, slots, fields] using hrun

/-- **`pb_decode` undoes `pb_encode`**, for tables of any depth. -/
theorem pbDecode_wire_received (hmem : ∀ ptr, Searchable (mem ptr)) (hfields : Searchable fields)
    {slots dest : List Slot} (hsh : HaveShapes mem fields slots) (hflat : AllFlat slots)
    (hends : AllEnd slots) (hdest : SameType dest slots) (t : List UInt8) (e : Option String) :
    pbDecode mem fields dest (window (wire mem fields slots) t e)
      = ((true, receivedMessage mem fields slots), window [] t e) := by
  rw [pbDecode_eq hsh hdest, ← mergedMessage_zeroed hsh]
  exact pbDecodeNoinit_merges hmem hfields hsh hflat hends (allZeroed_allZeroed slots)
    (spellsMessage_wire hsh hflat) t e

/-- **One message behind the other is the second merged into the first.** -/
theorem pbDecode_append (hmem : ∀ ptr, Searchable (mem ptr)) (hfields : Searchable fields)
    {slots slots' dest : List Slot} (hsh : HaveShapes mem fields slots)
    (hsh' : HaveShapes mem fields slots') (hflat : AllFlat slots) (hflat' : AllFlat slots')
    (hends : AllEnd slots) (hends' : AllEnd slots') (hdest : SameType dest slots)
    {w w' : List UInt8} (hw : SpellsMessage mem fields slots w)
    (hw' : SpellsMessage mem fields slots' w') (t : List UInt8) (e : Option String) :
    pbDecode mem fields dest (window (w ++ w') t e)
      = ((true, mergedMessage mem fields (receivedMessage mem fields slots) slots'),
          window [] t e) := by
  have hzero : SameType (allZeroed slots) slots := allZeroed_allZeroed slots
  have hreceived : SameType (receivedMessage mem fields slots) slots' := by
    rw [← mergedMessage_zeroed hsh]
    exact (sameType_merged hsh hzero).trans (sameType_of_haveShapes hsh hsh' hflat hflat')
  obtain ⟨read, hrecords, hrequired⟩ := SpellsMessage.areRecords hmem (w.length + 1)
    (Nat.lt_succ_self _) hfields hsh hflat hends hzero hw
  obtain ⟨read', hrecords', -⟩ := SpellsMessage.areRecords hmem (w'.length + 1)
    (Nat.lt_succ_self _) hfields hsh' hflat' hends' hreceived hw'
  rw [mergedMessage_zeroed hsh] at hrecords
  have hmessage := IsMessage.mk (hrecords.append hrecords')
    (fun i hi hlt => List.mem_append_left _ (hrequired i hi hlt)) (Or.inl ⟨rfl, rfl⟩)
  rw [List.append_nil] at hmessage
  rw [pbDecode_eq hsh hdest]
  exact (pbDecodeNoinit_iff (fun ptr => (hmem ptr).tags) hfields.tags).mpr ⟨[], hmessage, rfl⟩

/-- A message with a flag that is set behind one where it is not. -/
theorem pbDecode_append_flag :
    let mem : Unit → List (PbField Unit) := fun _ => []
    let fields : List (PbField Unit) :=
      [⟨1, .required, .uvarint, 4, none⟩, ⟨2, .optional, .uvarint, 1, none⟩]
    pbDecode mem fields [.uint 5, .optional false (.uint 6)]
        (window [0x08, 0x07, 0x10, 0x09, 0x08, 0x08] [] none)
      = ((true, [.uint 8, .optional true (.uint 9)]), window [] [] none) := by
  intro mem fields
  let slots : List Slot := [.uint 7, .optional true (.uint 9)]
  let slots' : List Slot := [.uint 8, .optional false (.uint 0)]
  have hmem : ∀ ptr, Searchable (mem ptr) := fun _ => ⟨List.nodup_nil, List.forall_mem_nil _⟩
  have hfields : Searchable fields := ⟨show ([1, 2] : List Nat).Nodup by decide, by decide⟩
  have hsh : HaveShapes mem fields slots ∧ HaveShapes mem fields slots' := by
    simp [HaveShapes, HasShape, fields, slots, slots', Slot.htype, validDataSize, PbField.InRange]
  have hflat : AllFlat slots ∧ AllFlat slots' := by
    simp [slots, slots', AllFlat, Slot.Flat, Slot.htype]
  have hends : AllEnd slots ∧ AllEnd slots' := by simp [slots, slots', AllEnd, Slot.Ends]
  have hdest : SameType [.uint 5, .optional false (.uint 6)] slots := by
    simp [SameType, slots, allZeroed, Slot.zeroed]
  have hbytes : wire mem fields slots ++ wire mem fields slots'
      = [0x08, 0x07, 0x10, 0x09, 0x08, 0x08] := by decide +kernel
  have hrun := pbDecode_append hmem hfields hsh.1 hsh.2 hflat.1 hflat.2 hends.1 hends.2 hdest
    (spellsMessage_wire hsh.1 hflat.1) (spellsMessage_wire hsh.2 hflat.2) [] none
  rw [hbytes] at hrun
  simpa [receivedMessage, receivedData, mergedMessage, mergedData, slots, slots', fields] using hrun

/-! ## What is received is sent in the same form -/

/-- Padding does not change a string. -/
theorem cString_padded (a : List UInt8) (k : Nat) :
    cString (cString a ++ List.replicate k 0) = cString a := by
  cases k with
  | zero =>
    rw [List.replicate_zero, List.append_nil]
    exact cString_of_notMem (zero_notMem_cString a)
  | succ k =>
    rw [List.replicate_succ]
    exact cString_append_zero (zero_notMem_cString a) _

theorem receivedData_has (mem : P → List (PbField P)) (field : PbField P) (slot : Slot) :
    (receivedData mem field slot).has = slot.has := by
  cases slot with
  | struct members =>
    rw [receivedData]
    cases field.ptr <;> rfl
  | _ => simp [receivedData, Slot.has]

mutual

theorem wireData_received : ∀ {field : PbField P} {slot : Slot}, slot.Flat → slot.has = true →
    wireData mem field (receivedData mem field slot) = wireData mem field slot
  | field, .chars a, _, _ => by
    rw [receivedData, wireData, wireData, cString_padded]
  | field, .uint v, _, _ => by
    rw [receivedData]
  | field, .struct members, hflat, _ => by
    rw [Slot.Flat] at hflat
    rw [receivedData, wireData]
    cases hptr : field.ptr with
    | none =>
      dsimp only
      rw [wireData, hptr]
    | some ptr =>
      dsimp only
      rw [wireData, hptr]
      dsimp only
      rw [wire_received hflat]
  | field, .optional has member, hflat, hhas => by
    obtain rfl : has = true := hhas
    rw [Slot.Flat] at hflat
    have hmember : member.has = true := by
      cases member with
      | optional => exact absurd hflat.1 (by simp [Slot.htype])
      | _ => rfl
    rw [receivedData, if_pos rfl, wireData, wireData, wireData_received hflat.2 hmember]

/-- A struct that was received is sent as the one that it was received from. -/
theorem wire_received : ∀ {fields : List (PbField P)} {slots : List Slot}, AllFlat slots →
    wire mem fields (receivedMessage mem fields slots) = wire mem fields slots
  | [], slots, _ => by
    rw [receivedMessage]
    simp
  | _ :: _, [], _ => by
    rw [receivedMessage]
    simp
  | field :: fields, slot :: slots, hflat => by
    rw [AllFlat] at hflat
    rw [receivedMessage, wire, wire, receivedData_has, wire_received hflat.2]
    cases hhas : slot.has with
    | true => rw [if_pos rfl, if_pos rfl, wireData_received hflat.1 hhas]
    | false => rw [if_neg Bool.false_ne_true, if_neg Bool.false_ne_true]

end

end EmbeddedTestbench.Nanopb
