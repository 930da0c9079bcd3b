import EmbeddedTestbench.Hid
import EmbeddedTestbench.Nanopb.Merge
import EmbeddedTestbench.Nanopb.Safety

/-!
# The messages of `hid.proto` through `pb_encode` and `pb_decode`

What the results about field tables say of the five structs of the program.

Headlines:
* **`pbDecode_leaves_message`**: whatever bytes come, `pb_decode` leaves a struct of its type, with
  strings that end, also when it rejects them halfway.
* **`pbDecode_pbEncode`**: a struct that is encoded and decoded comes back, `UnionMessage` with any
  of its submessages.
* **`pbDecode_normal`**: what was decoded once is sent in one form from then on, however it came.
-/

namespace EmbeddedTestbench

open Nanopb IStream

/-! ## The tables -/

theorem linked_fieldsAt (a : FieldsAddr) : LinkedTable (fieldsAt a) := by
  unfold LinkedTable
  cases a with
  | other n => exact List.forall_mem_nil _
  | _ => decide

theorem roomForStrings_fieldsAt (a : FieldsAddr) : RoomForStrings (fieldsAt a) := by
  unfold RoomForStrings
  cases a with
  | other n => exact List.forall_mem_nil _
  | _ => decide

/-! ## The struct that is received -/

/-- `DeviceDescriptor_init_zero`. -/
def DeviceDescriptor.initZero : DeviceDescriptor := ⟨.zero 64, .zero 64, 0⟩

/-- `HIDReport_init_zero`. -/
def HIDReport.initZero : HIDReport := ⟨.zero 256⟩

/-- `InputReport_init_zero`. -/
def InputReport.initZero : InputReport := ⟨.zero 64⟩

/-- The submessages that are there, with padded strings; the others have their defaults. -/
def UnionMessage.received (m : UnionMessage) : UnionMessage :=
  ⟨m.hasDeviceDescriptor,
    if m.hasDeviceDescriptor then LeafMessage.received m.deviceDescriptor else .initZero,
    m.hasHidReport, if m.hasHidReport then LeafMessage.received m.hidReport else .initZero,
    m.hasInputReport, if m.hasInputReport then LeafMessage.received m.inputReport else .initZero⟩

namespace HidMessage

/-- The struct on the other side. -/
def received : HidMessage → HidMessage
  | deviceDescriptor m => deviceDescriptor (LeafMessage.received m)
  | hidReport m => hidReport (LeafMessage.received m)
  | inputReport m => inputReport (LeafMessage.received m)
  | unionMessage m => unionMessage m.received
  | packet m => packet (LeafMessage.received m)

/-- All its strings end inside their arrays, those of submessages that are not there too. -/
def Terminated : HidMessage → Prop
  | deviceDescriptor m => LeafMessage.Terminated m
  | hidReport m => LeafMessage.Terminated m
  | inputReport m => LeafMessage.Terminated m
  | unionMessage m => LeafMessage.Terminated m.deviceDescriptor ∧
      LeafMessage.Terminated m.hidReport ∧ LeafMessage.Terminated m.inputReport
  | packet m => LeafMessage.Terminated m

theorem allFlat (m : HidMessage) : AllFlat m.slots := by
  cases m <;> simp [slots, Message.slots, AllFlat, Slot.Flat, Slot.htype]

@[simp] theorem received_fields (m : HidMessage) : m.received.fields = m.fields := by
  cases m <;> rfl

end HidMessage

theorem receivedMessage_slots {α : Type} [LeafMessage α] (m : α) :
    receivedMessage fieldsAt (fieldsAt (Message.fields α)) (Message.slots m)
      = Message.slots (LeafMessage.received m) := by
  rw [receivedMessage_leaf LeafMessage.leaf.required LeafMessage.leaf.scalar (Message.haveShapes m),
    LeafMessage.slots_received]

/-- A submessage that is there, and one that is not. -/
theorem receivedData_submessage {α : Type} [LeafMessage α] {field : PbField FieldsAddr}
    (hptr : field.ptr = some (Message.fields α)) (has : Bool) (m zero : α)
    (hzero : pbMessageSetToDefaults fieldsAt (fieldsAt (Message.fields α)) (Message.slots m)
      = Message.slots zero) :
    receivedData fieldsAt field (.optional has (.struct (Message.slots m)))
      = .optional has (.struct (Message.slots (if has then LeafMessage.received m else zero))) := by
  rw [receivedData]
  cases has with
  | true => rw [if_pos rfl, if_pos rfl, receivedData, hptr, ← receivedMessage_slots]
  | false =>
    rw [if_neg Bool.false_ne_true, if_neg Bool.false_ne_true, pbFieldSetToDefault, hptr, ← hzero]

theorem HidMessage.slots_received : ∀ m : HidMessage,
    receivedMessage fieldsAt (fieldsAt m.fields) m.slots = m.received.slots
  | deviceDescriptor m => receivedMessage_slots m
  | hidReport m => receivedMessage_slots m
  | inputReport m => receivedMessage_slots m
  | packet m => receivedMessage_slots m
  | unionMessage m => by
    have hdefaults : ∀ {α : Type} [LeafMessage α] (a : α),
        pbMessageSetToDefaults fieldsAt (fieldsAt (Message.fields α)) (Message.slots a)
          = (fieldsAt (Message.fields α)).map zeroSlot := fun a =>
      pbMessageSetToDefaults_leaf LeafMessage.leaf.required LeafMessage.leaf.scalar
        (Message.haveShapes a)
    show receivedMessage fieldsAt (fieldsAt .unionMessage) (Message.slots m) = Message.slots m.received
    simp only [fieldsAt, Message.slots, receivedMessage]
    refine congrArg₂ List.cons ?_ (congrArg₂ List.cons ?_ (congrArg₂ List.cons ?_ rfl))
    · exact receivedData_submessage rfl m.hasDeviceDescriptor m.deviceDescriptor .initZero
        (hdefaults m.deviceDescriptor)
    · exact receivedData_submessage rfl m.hasHidReport m.hidReport .initZero (hdefaults m.hidReport)
    · exact receivedData_submessage rfl m.hasInputReport m.inputReport .initZero
        (hdefaults m.inputReport)

/-! ## A struct that fits is a struct of its type -/

section Fit

variable {field : PbField FieldsAddr} {fields : List (PbField FieldsAddr)} {slot : Slot}
  {slots : List Slot}

theorem allFit_nil (h : AllFit fieldsAt [] slots) : slots = [] := by
  cases slots with
  | nil => rfl
  | cons slot slots => exact (not_allFit_nil_cons h).elim

theorem allFit_cons (h : AllFit fieldsAt (field :: fields) slots) :
    ∃ slot rest, slots = slot :: rest ∧ field.htype = slot.htype ∧ FieldFits fieldsAt field slot ∧
      AllFit fieldsAt fields rest := by
  cases slots with
  | nil => exact (not_allFit_cons_nil h).elim
  | cons slot rest =>
    rw [AllFit] at h
    exact ⟨slot, rest, rfl, h.1, h.2.1, h.2.2⟩

theorem fits_string (hl : field.ltype = .string) (hh : slot.htype = .required)
    (h : FieldFits fieldsAt field slot) :
    ∃ a : CharArray field.dataSize, slot = .chars a.bytes ∧ a.Terminated := by
  cases slot with
  | chars a =>
    rw [FieldFits] at h
    exact ⟨⟨a, h.2.1⟩, rfl, h.2.2⟩
  | optional => exact absurd hh (by simp [Slot.htype])
  | _ =>
    rw [FieldFits] at h
    exact absurd (h.1.symm.trans hl) (by decide)

theorem fits_uvarint (hl : field.ltype = .uvarint) (hh : slot.htype = .required)
    (h : FieldFits fieldsAt field slot) : ∃ v, slot = .uint v ∧ v.toNat < 256 ^ field.dataSize := by
  cases slot with
  | uint v =>
    rw [FieldFits] at h
    exact ⟨v, rfl, h.2⟩
  | optional => exact absurd hh (by simp [Slot.htype])
  | _ =>
    rw [FieldFits] at h
    exact absurd (h.1.symm.trans hl) (by decide)

theorem fits_submessage {ptr : FieldsAddr} (hl : field.ltype = .submessage)
    (hptr : field.ptr = some ptr) (hh : slot.htype = .optional) (h : FieldFits fieldsAt field slot) :
    ∃ has ms, slot = .optional has (.struct ms) ∧ AllFit fieldsAt (fieldsAt ptr) ms := by
  cases slot with
  | optional has member =>
    rw [FieldFits] at h
    cases member with
    | struct ms =>
      obtain ⟨-, h⟩ := h
      rw [FieldFits] at h
      obtain ⟨-, ptr', hptr', hms⟩ := h
      obtain rfl := Option.some.inj (hptr.symm.trans hptr')
      exact ⟨has, ms, rfl, hms⟩
    | optional => exact absurd h.1 (by simp [Slot.htype])
    | _ =>
      obtain ⟨-, h⟩ := h
      rw [FieldFits] at h
      exact absurd (h.1.symm.trans hl) (by decide)
  | _ => exact absurd hh (by simp [Slot.htype])

/-- A byte in a 64-bit word. -/
theorem toUInt64_toUInt8 {v : UInt64} (h : v.toNat < 256) : v.toUInt8.toUInt64 = v := by
  apply UInt64.toNat_inj.mp
  rw [UInt8.toNat_toUInt64, UInt64.toNat_toUInt8, Nat.mod_eq_of_lt h]

theorem toUInt64_toUInt32 {v : UInt64} (h : v.toNat < 2 ^ 32) : v.toUInt32.toUInt64 = v := by
  apply UInt64.toNat_inj.mp
  rw [UInt32.toNat_toUInt64, UInt64.toNat_toUInt32, Nat.mod_eq_of_lt h]

theorem allFit_deviceDescriptor (h : AllFit fieldsAt (fieldsAt .deviceDescriptor) slots) :
    ∃ m : DeviceDescriptor, Message.slots m = slots ∧ LeafMessage.Terminated m := by
  obtain ⟨s₁, rest₁, rfl, hh₁, h₁, h⟩ := allFit_cons h
  obtain ⟨s₂, rest₂, rfl, hh₂, h₂, h⟩ := allFit_cons h
  obtain ⟨s₃, rest₃, rfl, hh₃, h₃, h⟩ := allFit_cons h
  obtain rfl := allFit_nil h
  obtain ⟨iManufacturer, rfl, hend₁⟩ := fits_string rfl hh₁.symm h₁
  obtain ⟨iProduct, rfl, hend₂⟩ := fits_string rfl hh₂.symm h₂
  obtain ⟨v, rfl, hv⟩ := fits_uvarint rfl hh₃.symm h₃
  refine ⟨⟨iManufacturer, iProduct, v.toUInt32⟩, ?_, hend₁, hend₂⟩
  show [Slot.chars iManufacturer.bytes, .chars iProduct.bytes, .uint v.toUInt32.toUInt64] = _
  rw [toUInt64_toUInt32 hv]

theorem allFit_hidReport (h : AllFit fieldsAt (fieldsAt .hidReport) slots) :
    ∃ m : HIDReport, Message.slots m = slots ∧ LeafMessage.Terminated m := by
  obtain ⟨s, rest, rfl, hh, hs, h⟩ := allFit_cons h
  obtain rfl := allFit_nil h
  obtain ⟨data, rfl, hend⟩ := fits_string rfl hh.symm hs
  exact ⟨⟨data⟩, rfl, hend⟩

theorem allFit_inputReport (h : AllFit fieldsAt (fieldsAt .inputReport) slots) :
    ∃ m : InputReport, Message.slots m = slots ∧ LeafMessage.Terminated m := by
  obtain ⟨s, rest, rfl, hh, hs, h⟩ := allFit_cons h
  obtain rfl := allFit_nil h
  obtain ⟨data, rfl, hend⟩ := fits_string rfl hh.symm hs
  exact ⟨⟨data⟩, rfl, hend⟩

theorem allFit_packet (h : AllFit fieldsAt (fieldsAt .packet) slots) :
    ∃ m : Packet, Message.slots m = slots ∧ LeafMessage.Terminated m := by
  obtain ⟨s₁, rest₁, rfl, hh₁, h₁, h⟩ := allFit_cons h
  obtain ⟨s₂, rest₂, rfl, hh₂, h₂, h⟩ := allFit_cons h
  obtain ⟨s₃, rest₃, rfl, hh₃, h₃, h⟩ := allFit_cons h
  obtain ⟨s₄, rest₄, rfl, hh₄, h₄, h⟩ := allFit_cons h
  obtain rfl := allFit_nil h
  obtain ⟨data, rfl, hend⟩ := fits_string rfl hh₁.symm h₁
  obtain ⟨sequenceNumber, rfl, hv₂⟩ := fits_uvarint rfl hh₂.symm h₂
  obtain ⟨crc, rfl, hv₃⟩ := fits_uvarint rfl hh₃.symm h₃
  obtain ⟨flag, rfl, hv₄⟩ := fits_uvarint rfl hh₄.symm h₄
  refine ⟨⟨data, sequenceNumber.toUInt8, crc.toUInt8, flag.toUInt32⟩, ?_, hend⟩
  show [Slot.chars data.bytes, .uint sequenceNumber.toUInt8.toUInt64, .uint crc.toUInt8.toUInt64,
    .uint flag.toUInt32.toUInt64] = _
  rw [toUInt64_toUInt8 hv₂, toUInt64_toUInt8 hv₃, toUInt64_toUInt32 hv₄]

theorem allFit_unionMessage (h : AllFit fieldsAt (fieldsAt .unionMessage) slots) :
    ∃ m : UnionMessage, Message.slots m = slots ∧ (HidMessage.unionMessage m).Terminated := by
  obtain ⟨s₁, rest₁, rfl, hh₁, h₁, h⟩ := allFit_cons h
  obtain ⟨s₂, rest₂, rfl, hh₂, h₂, h⟩ := allFit_cons h
  obtain ⟨s₃, rest₃, rfl, hh₃, h₃, h⟩ := allFit_cons h
  obtain rfl := allFit_nil h
  obtain ⟨has₁, ms₁, rfl, hms₁⟩ := fits_submessage rfl rfl hh₁.symm h₁
  obtain ⟨has₂, ms₂, rfl, hms₂⟩ := fits_submessage rfl rfl hh₂.symm h₂
  obtain ⟨has₃, ms₃, rfl, hms₃⟩ := fits_submessage rfl rfl hh₃.symm h₃
  obtain ⟨m₁, rfl, hend₁⟩ := allFit_deviceDescriptor hms₁
  obtain ⟨m₂, rfl, hend₂⟩ := allFit_hidReport hms₂
  obtain ⟨m₃, rfl, hend₃⟩ := allFit_inputReport hms₃
  exact ⟨⟨has₁, m₁, has₂, m₂, has₃, m₃⟩, rfl, hend₁, hend₂, hend₃⟩

theorem HidMessage.of_allFit (d : HidMessage) (h : AllFit fieldsAt (fieldsAt d.fields) slots) :
    ∃ m : HidMessage, m.fields = d.fields ∧ m.slots = slots ∧ m.Terminated := by
  cases d with
  | deviceDescriptor =>
    obtain ⟨m, hm, hend⟩ := allFit_deviceDescriptor h
    exact ⟨deviceDescriptor m, rfl, hm, hend⟩
  | hidReport =>
    obtain ⟨m, hm, hend⟩ := allFit_hidReport h
    exact ⟨hidReport m, rfl, hm, hend⟩
  | inputReport =>
    obtain ⟨m, hm, hend⟩ := allFit_inputReport h
    exact ⟨inputReport m, rfl, hm, hend⟩
  | unionMessage =>
    obtain ⟨m, hm, hend⟩ := allFit_unionMessage h
    exact ⟨unionMessage m, rfl, hm, hend⟩
  | packet =>
    obtain ⟨m, hm, hend⟩ := allFit_packet h
    exact ⟨packet m, rfl, hm, hend⟩

end Fit

/-! ## Through the wire -/

theorem HidMessage.Terminated.allEnd {m : HidMessage} (h : m.Terminated) : AllEnd m.slots := by
  cases m <;> simp_all [HidMessage.Terminated, HidMessage.slots, Message.slots, AllEnd, Slot.Ends,
    LeafMessage.Terminated, CharArray.Terminated]

/-- What `pb_decode` leaves fits the table. -/
theorem pbDecode_allFit (d : HidMessage) (w t : List UInt8) (e : Option String) :
    AllFit fieldsAt (fieldsAt d.fields)
      (pbDecode fieldsAt (fieldsAt d.fields) d.slots (window w t e)).1.2 :=
  pbDecode_ensures linked_fieldsAt roomForStrings_fieldsAt (linked_fieldsAt d.fields)
    (roomForStrings_fieldsAt d.fields) d.haveShapes d.allFlat w t e

/-- **Whatever bytes come, `pb_decode` leaves a struct of its type**, whose strings end inside their
arrays: when it accepts the message, and when it gives up somewhere in it. -/
theorem pbDecode_leaves_message (d : HidMessage) (w t : List UInt8) (e : Option String) :
    ∃ m : HidMessage, m.fields = d.fields ∧ m.Terminated ∧
      (pbDecode fieldsAt (fieldsAt d.fields) d.slots (window w t e)).1.2 = m.slots := by
  obtain ⟨m, hfields, hslots, hend⟩ := d.of_allFit (pbDecode_allFit d w t e)
  exact ⟨m, hfields, hend, hslots.symm⟩

/-- Two structs of one table are of the same type. -/
theorem HidMessage.sameType {m d : HidMessage} (hd : d.fields = m.fields) :
    SameType d.slots m.slots :=
  sameType_of_haveShapes (hd ▸ d.haveShapes) m.haveShapes d.allFlat m.allFlat

/-- **A struct comes back**, into whatever struct of its type. -/
theorem pbDecode_pbEncode (m d : HidMessage) (hd : d.fields = m.fields) (hends : AllEnd m.slots)
    {buf : List UInt8} {n : Nat} {o : OStream}
    (henc : pbEncode fieldsAt (fieldsAt m.fields) m.slots (pbOstreamFromBuffer buf n) = (true, o)) :
    (pbDecode fieldsAt (fieldsAt m.fields) d.slots
      (pbIstreamFromBuffer (o.before ++ o.state) o.bytesWritten)).1 = (true, m.received.slots) := by
  obtain ⟨hbytes, hlen⟩ := (pbEncode_emits m.haveShapes).buffer henc
  rw [hbytes, hlen, pbIstreamFromBuffer_append, pbDecode_wire_received searchable_fieldsAt
    (searchable_fieldsAt m.fields) m.haveShapes m.allFlat hends (HidMessage.sameType hd),
    m.slots_received]

/-- A union message with a text in its report, into a struct that has another submessage. -/
theorem pbDecode_pbEncode_report :
    let m : HidMessage :=
      .unionMessage ⟨false, .initZero, true, ⟨.ofBytes 256 [104, 105]⟩, false, .initZero⟩
    let d : HidMessage := .unionMessage ⟨false, .initZero, false, .initZero, true, .initZero⟩
    ∃ o, pbEncode fieldsAt (fieldsAt m.fields) m.slots (pbOstreamFromBuffer (List.replicate 9 0xFF) 9)
        = (true, o) ∧
      (pbDecode fieldsAt (fieldsAt m.fields) d.slots
        (pbIstreamFromBuffer (o.before ++ o.state) o.bytesWritten)).1 = (true, m.received.slots) := by
  intro m d
  have hreport : (CharArray.ofBytes 256 [104, 105]).Terminated := by decide +kernel
  have hinput : (CharArray.zero 64).Terminated := by decide +kernel
  have hends : AllEnd m.slots := HidMessage.Terminated.allEnd ⟨⟨hinput, hinput⟩, hreport, hinput⟩
  have hok : (pbEncode fieldsAt (fieldsAt m.fields) m.slots
      (pbOstreamFromBuffer (List.replicate 9 0xFF) 9)).1 = true := by decide +kernel
  rcases henc : pbEncode fieldsAt (fieldsAt m.fields) m.slots
    (pbOstreamFromBuffer (List.replicate 9 0xFF) 9) with ⟨ok, o⟩
  rw [henc] at hok
  obtain rfl : ok = true := hok
  exact ⟨o, rfl, pbDecode_pbEncode m d rfl hends henc⟩

/-- **What was decoded once is sent in one form from then on**: whatever bytes the struct was made of,
its encoding decodes, into a struct that has the same encoding. -/
theorem pbDecode_normal (d d' : HidMessage) (hd : d'.fields = d.fields) (w t : List UInt8)
    (e : Option String) :
    ∃ m : HidMessage, (pbDecode fieldsAt (fieldsAt d.fields) d.slots (window w t e)).1.2 = m.slots ∧
      wire fieldsAt (fieldsAt d.fields) m.received.slots = wire fieldsAt (fieldsAt d.fields) m.slots ∧
      ∀ t e, pbDecode fieldsAt (fieldsAt d.fields) d'.slots
        (window (wire fieldsAt (fieldsAt d.fields) m.slots) t e)
          = ((true, m.received.slots), window [] t e) := by
  obtain ⟨m, hfields, hslots, hend⟩ := d.of_allFit (pbDecode_allFit d w t e)
  rw [← hfields] at hd hslots ⊢
  refine ⟨m, hslots.symm, ?_, fun t e => ?_⟩
  · rw [← m.slots_received]
    exact wire_received m.allFlat
  · rw [← m.slots_received]
    exact pbDecode_wire_received searchable_fieldsAt (searchable_fieldsAt m.fields) m.haveShapes
      m.allFlat hend.allEnd (HidMessage.sameType hd) t e

/-- A packet whose data breaks off. -/
theorem pbDecode_normal_cut :
    let d : HidMessage := .packet .initZero
    ∃ m : HidMessage,
      (pbDecode fieldsAt (fieldsAt d.fields) d.slots (window [0x0A, 0x02, 0x68] [] none)).1.2
        = m.slots ∧
      wire fieldsAt (fieldsAt d.fields) m.received.slots = wire fieldsAt (fieldsAt d.fields) m.slots ∧
      ∀ t e, pbDecode fieldsAt (fieldsAt d.fields) d.slots
        (window (wire fieldsAt (fieldsAt d.fields) m.slots) t e)
          = ((true, m.received.slots), window [] t e) := by
  intro d
  exact pbDecode_normal d d rfl [0x0A, 0x02, 0x68] [] none

end EmbeddedTestbench
