import EmbeddedTestbench.Nanopb.AnyOrder

/-!
# What `pb_decode` leaves in the struct (`pb_decode.c`)

The decoder writes into the struct while it reads, so a message that is rejected halfway has been
written halfway: a string without its bytes, an integer that was cut off, a submessage with some of
its fields. `FieldFits` is what the rest of the program relies on: every array has its length and its
string ends inside it, every integer fits its member, every submessage is the struct of its table.

Headlines:
* `Contained.ensures`: what a reader leaves, from what the reader that it runs first leaves.
* `decodeLoop_ensures`: one field after the other keeps a struct that fits, with any fuel.
* **`pbDecode_ensures`**: so the struct fits after `pb_decode`, whatever came and however it ended.
-/

namespace EmbeddedTestbench.Nanopb

open IStream

/-! ## What a reader answers -/

/-- On every window the answer of `f` is one of `Q`. -/
def Ensures {α : Type} (f : IStream → α × IStream) (Q : α → Prop) : Prop :=
  ∀ (w t : List UInt8) (e : Option String), Q (f (window w t e)).1

/-- `g` runs `f`, and goes on by its answer. -/
theorem Contained.ensures {α β : Type} {f : IStream → α × IStream} {g : IStream → β × IStream}
    {Q : α → Prop} {R : β → Prop} (hf : Contained f) (hQ : Ensures f Q)
    (h : ∀ a, Q a → ∃ k, Ensures k R ∧ ∀ s s', f s = (a, s') → g s = k s') : Ensures g R := by
  intro w t e
  obtain ⟨u, r, a, msg, rfl, hrun⟩ := hf w
  have ha : Q a := by
    have := hQ (u ++ r) t e
    rwa [hrun t e] at this
  obtain ⟨k, hk, hg⟩ := h a ha
  rw [hg _ _ (hrun t e)]
  exact hk r t (e.or msg)

theorem ensures_true {α : Type} (f : IStream → α × IStream) : Ensures f fun _ => True :=
  fun _ _ _ => trivial

theorem ensures_of_forall {α : Type} {f : IStream → α × IStream} {Q : α → Prop}
    (h : ∀ s, Q (f s).1) : Ensures f Q := fun w t e => h (window w t e)

theorem Ensures.ite_nil {α : Type} {f g : IStream → α × IStream} {Q : α → Prop}
    (hf : Ensures f Q) (hg : Ensures g Q) :
    Ensures (fun s => if s.bytesLeft = 0 then f s else g s) Q := by
  intro w t e
  by_cases h : (window w t e).bytesLeft = 0
  · simpa only [if_pos h] using hf w t e
  · simpa only [if_neg h] using hg w t e

theorem pbRead_ensures (n : Nat) :
    Ensures (fun s => pbRead s n) fun a => ∀ buf, a = some buf → buf.length = n := by
  intro w t e buf hbuf
  rcases hread : pbRead (window w t e) n with ⟨a, s⟩
  have hsome : (pbRead (window w t e) n).1 = some buf := hbuf
  rw [hread] at hsome
  obtain rfl : a = some buf := hsome
  obtain ⟨-, -, -, hlen⟩ := pbRead_some hread
  exact hlen

variable {P : Type}

/-! ## Members that fit -/

mutual

/-- The member is what its field says, and its strings end inside their arrays. -/
def FieldFits (mem : P → List (PbField P)) (field : PbField P) : Slot → Prop
  | .chars a => field.ltype = .string ∧ a.length = field.dataSize ∧ 0 ∈ a
  | .uint v => field.ltype = .uvarint ∧ v.toNat < 256 ^ field.dataSize
  | .struct members => field.ltype = .submessage ∧
      ∃ ptr, field.ptr = some ptr ∧ AllFit mem (mem ptr) members
  | .optional _ member => member.htype = .required ∧ FieldFits mem field member

def AllFit (mem : P → List (PbField P)) : List (PbField P) → List Slot → Prop
  | [], [] => True
  | field :: fields, slot :: slots =>
    field.htype = slot.htype ∧ FieldFits mem field slot ∧ AllFit mem fields slots
  | _, _ => False

end

variable {mem : P → List (PbField P)} {fields : List (PbField P)} {field : PbField P}
  {slot slot' : Slot} {slots : List Slot}

theorem not_allFit_nil_cons : ¬ AllFit mem [] (slot :: slots) := by
  rw [AllFit]
  · exact id
  · simp
  · simp

theorem not_allFit_cons_nil : ¬ AllFit mem (field :: fields) [] := by
  rw [AllFit]
  · exact id
  · simp
  · simp

/-- A member fits, and so does one that takes its place. -/
theorem AllFit.set : ∀ {fields : List (PbField P)} {slots : List Slot}, AllFit mem fields slots →
    ∀ {i : Nat} {f : PbField P} {slot : Slot}, fields[i]? = some f → slots[i]? = some slot →
    (f.htype = slot.htype ∧ FieldFits mem f slot) ∧ ∀ slot', f.htype = slot'.htype →
      FieldFits mem f slot' → AllFit mem fields (slots.set i slot')
  | [], [], _, _, _, _, h, _ => absurd h (by simp)
  | f :: fields, slot :: slots, h, 0, _, _, hf, hs => by
    rw [AllFit] at h
    obtain rfl := Option.some.inj hf
    obtain rfl := Option.some.inj hs
    refine ⟨⟨h.1, h.2.1⟩, fun slot' hh hfit => ?_⟩
    rw [List.set_cons_zero, AllFit]
    exact ⟨hh, hfit, h.2.2⟩
  | f :: fields, slot :: slots, h, i + 1, _, _, hf, hs => by
    rw [AllFit] at h
    obtain ⟨hslot, hset⟩ := h.2.2.set hf hs
    refine ⟨hslot, fun slot' hh hfit => ?_⟩
    rw [List.set_cons_succ, AllFit]
    exact ⟨h.1, h.2.1, hset slot' hh hfit⟩
  | [], _ :: _, h, _, _, _, _, _ => (not_allFit_nil_cons h).elim
  | _ :: _, [], h, _, _, _, _, _ => (not_allFit_cons_nil h).elim

/-! ## Field decoders -/

/-- A member without a flag fits. -/
def PlainFits (mem : P → List (PbField P)) (field : PbField P) (slot : Slot) : Prop :=
  slot.htype = .required ∧ FieldFits mem field slot

theorem plainFits_chars {a : List UInt8} (hl : field.ltype = .string)
    (hlen : a.length = field.dataSize) (hend : 0 ∈ a) : PlainFits mem field (.chars a) := by
  refine ⟨rfl, ?_⟩
  rw [FieldFits]
  exact ⟨hl, hlen, hend⟩

/-- An integer is cut off to its size before it is checked. -/
theorem plainFits_clamped (hl : field.ltype = .uvarint) (v : UInt64) :
    PlainFits mem field (.uint (UInt64.ofNat (v.toNat % 256 ^ field.dataSize))) := by
  have hlt : v.toNat % 256 ^ field.dataSize < 256 ^ field.dataSize :=
    Nat.mod_lt _ (Nat.pow_pos (by decide))
  refine ⟨rfl, ?_⟩
  rw [FieldFits, UInt64.toNat_ofNat']
  exact ⟨hl, (Nat.mod_le _ _).trans_lt hlt⟩

theorem pbDecUvarint_ensures (hl : field.ltype = .uvarint) (h : PlainFits mem field slot) :
    Ensures (pbDecUvarint field slot) fun a => PlainFits mem field a.2 := by
  refine ensures_of_forall fun s => ?_
  rw [pbDecUvarint]
  rcases pbDecodeVarint s with ⟨_ | v, s'⟩
  · exact h
  · dsimp only
    split_ifs
    · exact plainFits_clamped hl v
    · exact plainFits_clamped hl v
    · exact h

/-- A string ends where its length says, also when its bytes did not come. -/
theorem pbDecString_ensures (hl : field.ltype = .string) (h : PlainFits mem field slot) :
    Ensures (pbDecString field slot) fun a => PlainFits mem field a.2 := by
  obtain ⟨a, rfl, hlen⟩ : ∃ a, slot = .chars a ∧ a.length = field.dataSize := by
    obtain ⟨hh, hfit⟩ := h
    cases slot with
    | chars a =>
      rw [FieldFits] at hfit
      exact ⟨a, rfl, hfit.2.1⟩
    | optional => exact absurd hh (by simp [Slot.htype])
    | _ =>
      rw [FieldFits] at hfit
      exact absurd (hfit.1.symm.trans hl) (by decide)
  refine pbDecodeVarint32_prefixReader.contained.ensures (ensures_true _) fun size _ => ?_
  cases size with
  | none => exact ⟨_, ensures_of_forall fun _ => h, fun s s' hs => by rw [pbDecString, hs]⟩
  | some size =>
    refine ⟨_, ?_, fun s s' hs => by rw [pbDecString, hs]⟩
    dsimp only
    split_ifs with hwrap hfits
    · exact ensures_of_forall fun _ => h
    · exact ensures_of_forall fun _ => h
    · have hroom : size.toNat < field.dataSize := by
        have hsize := size.toNat_lt
        have hnowrap : (size + 1).toNat = (size.toNat + 1) % 2 ^ 32 := UInt32.toNat_add _ _
        rw [UInt32.lt_iff_toNat_lt] at hwrap
        omega
      have hput : ∀ bs : List UInt8, bs.length = field.dataSize →
          PlainFits mem field (.chars (bs.set size.toNat 0)) := fun bs hbs =>
        plainFits_chars hl (by rw [List.length_set, hbs]) (List.mem_set (by omega) 0)
      refine (pbRead_prefixReader size.toNat).contained.ensures (pbRead_ensures size.toNat)
        fun buf hbuf => ?_
      cases buf with
      | none => exact ⟨_, ensures_of_forall fun _ => hput a hlen, fun s s' hs => by rw [hs]⟩
      | some buf =>
        refine ⟨_, ensures_of_forall fun _ => hput (buf ++ a.drop size.toNat) ?_,
          fun s s' hs => by rw [hs]⟩
        rw [List.length_append, List.length_drop, hbuf buf rfl]
        omega

variable {decode : P → List Slot → IStream → (Bool × List Slot) × IStream}

/-- A submessage, whatever its decoder and the substream answered. -/
theorem pbDecSubmessage_ensures (hl : field.ltype = .submessage) (h : PlainFits mem field slot)
    (hdecode : ∀ ptr ms, AllFit mem (mem ptr) ms →
      Ensures (decode ptr ms) fun a => AllFit mem (mem ptr) a.2) :
    Ensures (pbDecSubmessage field decode slot) fun a => PlainFits mem field a.2 := by
  obtain ⟨ms, ptr, rfl, hptr, hms⟩ : ∃ ms ptr, slot = .struct ms ∧ field.ptr = some ptr ∧
      AllFit mem (mem ptr) ms := by
    obtain ⟨hh, hfit⟩ := h
    cases slot with
    | struct ms =>
      rw [FieldFits] at hfit
      obtain ⟨-, ptr, hptr, hms⟩ := hfit
      exact ⟨ms, ptr, rfl, hptr, hms⟩
    | optional => exact absurd hh (by simp [Slot.htype])
    | _ =>
      rw [FieldFits] at hfit
      exact absurd (hfit.1.symm.trans hl) (by decide)
  intro w t e
  rcases makeSubstream_cases w with ⟨u, r, msg, rfl, hfail⟩ | ⟨u, p, r, rfl, hmake⟩
  · rw [pbDecSubmessage, hfail t e]
    exact h
  · have hsub := hdecode ptr ms hms p (r ++ t) e
    have hfit : PlainFits mem field (.struct (decode ptr ms (window p (r ++ t) e)).1.2) := by
      refine ⟨rfl, ?_⟩
      rw [FieldFits]
      exact ⟨hl, ptr, hptr, hsub⟩
    rw [pbDecSubmessage, hmake t e]
    dsimp only
    rw [hptr]
    dsimp only [Slot.members]
    rcases pbCloseStringSubstream ⟨p ++ (r ++ t), r.length, e⟩
      (decode ptr ms (window p (r ++ t) e)).2 with ⟨_ | _, s'⟩
    · exact hfit
    · exact hfit

theorem decodeData_ensures (h : PlainFits mem field slot)
    (hdecode : ∀ ptr ms, AllFit mem (mem ptr) ms →
      Ensures (decode ptr ms) fun a => AllFit mem (mem ptr) a.2) :
    Ensures (decodeData field decode slot) fun a => PlainFits mem field a.2 := by
  unfold decodeData
  cases hl : field.ltype with
  | uvarint => exact pbDecUvarint_ensures hl h
  | string => exact pbDecString_ensures hl h
  | submessage => exact pbDecSubmessage_ensures hl h hdecode

/-- The flag of an optional member is set, whether its data came or not. -/
theorem decodeStaticField_ensures (hh : field.htype = slot.htype) (h : FieldFits mem field slot)
    (hdecode : ∀ ptr ms, AllFit mem (mem ptr) ms →
      Ensures (decode ptr ms) fun a => AllFit mem (mem ptr) a.2) :
    Ensures (decodeStaticField field decode slot) fun a =>
      field.htype = a.2.htype ∧ FieldFits mem field a.2 := by
  intro w t e
  cases hreq : field.htype with
  | required =>
    have hplain : decodeStaticField field decode slot = decodeData field decode slot := by
      funext s
      rw [decodeStaticField]
      intro has member hopt _
      exact absurd (hreq.symm.trans hopt) (by decide)
    have hdata := decodeData_ensures ⟨hh.symm.trans hreq, h⟩ hdecode w t e
    rw [hplain]
    exact ⟨hdata.1.symm, hdata.2⟩
  | optional =>
    cases slot with
    | optional has member =>
      rw [FieldFits] at h
      have hdata := decodeData_ensures h hdecode w t e
      rw [decodeStaticField_optional hreq, FieldFits]
      exact ⟨rfl, hdata⟩
    | _ => exact absurd (hreq.symm.trans hh) (by simp [Slot.htype])

theorem decodeField_ensures {iter : PbFieldIter} (h : AllFit mem fields slots)
    (hdecode : ∀ ptr ms, AllFit mem (mem ptr) ms →
      Ensures (decode ptr ms) fun a => AllFit mem (mem ptr) a.2) :
    Ensures (decodeField fields iter decode slots) fun a => AllFit mem fields a.2 := by
  intro w t e
  rw [decodeField]
  cases hf : fields[iter.pos]? with
  | none =>
    dsimp only
    rw [decodeTerminator_fails]
    exact h
  | some f =>
    cases hs : slots[iter.pos]? with
    | none => exact h
    | some slot =>
      obtain ⟨⟨hh, hfit⟩, hset⟩ := h.set hf hs
      obtain ⟨hh', hfit'⟩ := decodeStaticField_ensures hh hfit hdecode w t e
      exact hset _ hh' hfit'

/-! ## The loop -/

/-- **The struct fits after every turn**, and after the loop. -/
theorem decodeLoop_ensures (hmem : ∀ ptr, LinkedTable (mem ptr)) : ∀ (n : Nat)
    {fields : List (PbField P)} {slots : List Slot}, LinkedTable fields → AllFit mem fields slots →
    ∀ (iter : PbFieldIter) (seen : List Nat),
      Ensures (decodeLoop mem n fields iter seen slots) fun a => AllFit mem fields a.2
  | 0, _, _, _, h, _, _ => ensures_of_forall fun _ => h
  | n + 1, fields, slots, hfields, h, iter, seen => by
    have hcheck : Ensures (checkRequired fields iter seen slots) fun a => AllFit mem fields a.2 := by
      refine ensures_of_forall fun s => ?_
      rw [checkRequired]
      split_ifs
      · exact h
      · exact h
    have hnested : ∀ ptr ms, AllFit mem (mem ptr) ms →
        Ensures (decodeLoop mem n (mem ptr) pbFieldIterBegin noneSeen ms)
          fun a => AllFit mem (mem ptr) a.2 := fun ptr ms hms =>
      decodeLoop_ensures hmem n (hmem ptr) hms pbFieldIterBegin noneSeen
    refine hcheck.ite_nil ?_
    refine pbDecodeTag_prefixReader.contained.ensures (ensures_true _) fun key _ => ?_
    rcases key with ⟨wireType, tag⟩ | (_ | _)
    rotate_left
    · exact ⟨_, ensures_of_forall fun _ => h, fun s s' hs => by rw [hs]⟩
    · exact ⟨_, hcheck, fun s s' hs => by rw [hs]⟩
    · refine ⟨_, ?_, fun s s' hs => by rw [hs]⟩
      dsimp only
      rcases pbFieldIterFind fields tag iter with ⟨_ | _, iter'⟩ <;> dsimp only
      · refine (pbSkipField_prefixReader wireType).contained.ensures (ensures_true _)
          fun ok _ => ?_
        cases ok with
        | false => exact ⟨_, ensures_of_forall fun _ => h, fun s s' hs => by rw [hs]⟩
        | true =>
          exact ⟨_, decodeLoop_ensures hmem n hfields h iter' seen, fun s s' hs => by rw [hs]⟩
      · refine (decodeField_contained hfields (fun ptr ms =>
          decodeLoop_contained hmem n (hmem ptr) pbFieldIterBegin noneSeen ms) iter' slots).ensures
          (decodeField_ensures h hnested) fun a ha => ?_
        rcases a with ⟨_ | _, slots'⟩
        · exact ⟨_, ensures_of_forall fun _ => ha, fun s s' hs => by rw [hs]⟩
        · exact ⟨_, decodeLoop_ensures hmem n hfields ha iter' (markSeen fields iter' seen),
            fun s s' hs => by rw [hs]⟩

/-! ## Defaults -/

/-- A string has room for its terminator. -/
def RoomForStrings (fields : List (PbField P)) : Prop :=
  ∀ f ∈ fields, f.ltype = .string → 0 < f.dataSize

mutual

theorem fits_setToDefault (hmem : ∀ ptr, RoomForStrings (mem ptr)) : ∀ {field : PbField P}
    {slot : Slot}, (field.ltype = .string → 0 < field.dataSize) → HasShape mem field slot →
    slot.Flat → FieldFits mem field (pbFieldSetToDefault mem field slot) ∧
      (pbFieldSetToDefault mem field slot).htype = slot.htype
  | field, .chars a, hroom, h, _ => by
    rw [HasShape] at h
    rw [pbFieldSetToDefault, FieldFits]
    exact ⟨⟨h.1, List.length_replicate, List.mem_replicate.mpr ⟨(hroom h.1).ne', rfl⟩⟩, rfl⟩
  | field, .uint v, _, h, _ => by
    rw [HasShape] at h
    rw [pbFieldSetToDefault, FieldFits]
    exact ⟨⟨h.1, Nat.pow_pos (by decide)⟩, rfl⟩
  | field, .struct members, _, h, hflat => by
    rw [HasShape] at h
    rw [Slot.Flat] at hflat
    cases hptr : field.ptr with
    | none =>
      rw [hptr] at h
      exact h.2.elim
    | some ptr =>
      rw [hptr] at h
      have hmembers := allFit_setToDefaults hmem (hmem ptr) h.2.1 hflat
      rw [pbFieldSetToDefault, hptr]
      dsimp only
      rw [FieldFits]
      exact ⟨⟨h.1, ptr, hptr, hmembers⟩, rfl⟩
  | field, .optional has member, hroom, h, hflat => by
    rw [HasShape] at h
    rw [Slot.Flat] at hflat
    obtain ⟨hfit, hh⟩ := fits_setToDefault hmem hroom h hflat.2
    rw [pbFieldSetToDefault, FieldFits]
    exact ⟨⟨hh.trans hflat.1, hfit⟩, rfl⟩

/-- The defaults fit, whatever was in the struct. -/
theorem allFit_setToDefaults (hmem : ∀ ptr, RoomForStrings (mem ptr)) :
    ∀ {fields : List (PbField P)} {slots : List Slot}, RoomForStrings fields →
      HaveShapes mem fields slots → AllFlat slots →
      AllFit mem fields (pbMessageSetToDefaults mem fields slots)
  | [], [], _, _, _ => by
    rw [pbMessageSetToDefaults]
    · rw [AllFit]
      trivial
    · simp
  | f :: fields, slot :: slots, hroom, h, hflat => by
    rw [HaveShapes] at h
    rw [AllFlat] at hflat
    obtain ⟨-, hh, hm, hrest⟩ := h
    obtain ⟨hfit, hh'⟩ := fits_setToDefault hmem (hroom f List.mem_cons_self) hm hflat.1
    rw [pbMessageSetToDefaults, AllFit]
    exact ⟨hh.trans hh'.symm, hfit, allFit_setToDefaults hmem
      (fun g hg => hroom g (List.mem_cons_of_mem f hg)) hrest hflat.2⟩
  | [], _ :: _, _, h, _ => (not_haveShapes_nil_cons h).elim
  | _ :: _, [], _, h, _ => (not_haveShapes_cons_nil h).elim

end

/-- **The struct fits after `pb_decode`**, whatever was in it, whatever came, and whether the message
was accepted or not. -/
theorem pbDecode_ensures (hlinked : ∀ ptr, LinkedTable (mem ptr))
    (hroom : ∀ ptr, RoomForStrings (mem ptr)) (hfields : LinkedTable fields)
    (hfieldsRoom : RoomForStrings fields) {dest : List Slot} (hdest : HaveShapes mem fields dest)
    (hflat : AllFlat dest) : Ensures (pbDecode mem fields dest) fun a => AllFit mem fields a.2 := by
  intro w t e
  exact decodeLoop_ensures hlinked (w.length + 1) hfields
    (allFit_setToDefaults hroom hfieldsRoom hdest hflat) pbFieldIterBegin noneSeen w t e

end EmbeddedTestbench.Nanopb
