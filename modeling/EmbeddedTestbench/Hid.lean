import EmbeddedTestbench.Nanopb.RoundTrip

/-!
# The messages of `hid.proto`

The structs and field tables that the nanopb generator makes of `hid.proto` and `hid.options`:
strings are `char[max_size]`, `IS_8` integers are one byte, an enum is an unsigned integer of
four bytes, and an optional submessage has a `has_` flag. `FieldsAddr` are the addresses of the
tables; `NULL` is the `none` of an `Option FieldsAddr`, and a caller may have tables of its own.

`Message` ties a struct to its table: its members have the shapes of the table's fields, and the
struct can be read back from its members.
-/

namespace EmbeddedTestbench

open Nanopb

/-! ## Structs -/

/-- `char [n]`. -/
structure CharArray (n : Nat) where
  bytes : List UInt8
  length_eq : bytes.length = n
  deriving DecidableEq, Repr

namespace CharArray

/-- The array that starts with `bs` and is zero behind it, as much of that as it holds. -/
def ofBytes (n : Nat) (bs : List UInt8) : CharArray n :=
  ⟨(bs ++ List.replicate n 0).take n, by simp⟩

/-- All zeros. -/
def zero (n : Nat) : CharArray n := ⟨List.replicate n 0, List.length_replicate⟩

/-- The C string in the array. -/
def str {n : Nat} (a : CharArray n) : List UInt8 := cString a.bytes

/-- The string ends inside the array. -/
def Terminated {n : Nat} (a : CharArray n) : Prop := 0 ∈ a.bytes

instance {n : Nat} (a : CharArray n) : Decidable a.Terminated :=
  inferInstanceAs (Decidable (0 ∈ a.bytes))

/-- The string, and zeros behind it. -/
def padded {n : Nat} (a : CharArray n) : CharArray n :=
  ⟨a.str ++ List.replicate (n - a.str.length) 0, by
    have := cString_length_le a.bytes
    rw [a.length_eq] at this
    simp only [str, List.length_append, List.length_replicate]
    omega⟩

end CharArray

/-- `DeviceDescriptor`. -/
structure DeviceDescriptor where
  iManufacturer : CharArray 64
  iProduct : CharArray 64
  bMaxPacketSize0 : UInt32
  deriving DecidableEq, Repr

/-- `HIDReport`. -/
structure HIDReport where
  data : CharArray 256
  deriving DecidableEq, Repr

/-- `InputReport`. -/
structure InputReport where
  data : CharArray 64
  deriving DecidableEq, Repr

/-- `UnionMessage`. -/
structure UnionMessage where
  hasDeviceDescriptor : Bool
  deviceDescriptor : DeviceDescriptor
  hasHidReport : Bool
  hidReport : HIDReport
  hasInputReport : Bool
  inputReport : InputReport
  deriving DecidableEq, Repr

/-- `Packet_Flag`. -/
inductive PacketFlag where
  | first
  | continue
  | last
  | firstlast
  deriving DecidableEq, Repr

/-- The number of a flag. -/
def PacketFlag.code : PacketFlag → UInt32
  | .first => 0
  | .continue => 1
  | .last => 2
  | .firstlast => 3

/-- `Packet`; `flag` is the memory of the enum, which may hold any number. -/
structure Packet where
  data : CharArray 16
  sequenceNumber : UInt8
  crc : UInt8
  flag : UInt32
  deriving DecidableEq, Repr

/-- `Packet_init_zero`. -/
def Packet.initZero : Packet := ⟨.zero 16, 0, 0, 0⟩

/-- `Packet_size`. -/
def packetSize : Nat := 32

/-! ## Field tables -/

/-- The addresses of the field tables: those of `hid.pb.c`, and any other. -/
inductive FieldsAddr where
  | deviceDescriptor
  | hidReport
  | inputReport
  | unionMessage
  | packet
  | other (n : Nat)
  deriving DecidableEq, Repr

/-- The tables `DeviceDescriptor_fields`, `HIDReport_fields`, and so on. -/
def fieldsAt : FieldsAddr → List (PbField FieldsAddr)
  | .deviceDescriptor =>
    [⟨1, .required, .string, 64, none⟩,
     ⟨2, .required, .string, 64, none⟩,
     ⟨3, .required, .uvarint, 4, none⟩]
  | .hidReport => [⟨1, .required, .string, 256, none⟩]
  | .inputReport => [⟨1, .required, .string, 64, none⟩]
  | .unionMessage =>
    [⟨1, .optional, .submessage, 132, some .deviceDescriptor⟩,
     ⟨2, .optional, .submessage, 256, some .hidReport⟩,
     ⟨3, .optional, .submessage, 64, some .inputReport⟩]
  | .packet =>
    [⟨1, .required, .string, 16, none⟩,
     ⟨2, .required, .uvarint, 1, none⟩,
     ⟨3, .required, .uvarint, 1, none⟩,
     ⟨4, .required, .uvarint, 4, none⟩]
  | .other _ => []

theorem searchable_fieldsAt (a : FieldsAddr) : Searchable (fieldsAt a) := by
  cases a with
  | other n => exact ⟨List.nodup_nil, List.forall_mem_nil _⟩
  | _ =>
    constructor
    · unfold DistinctTags
      decide
    · decide

/-- A struct with a field table. -/
class Message (α : Type) where
  /-- The table. -/
  fields : FieldsAddr
  /-- The members in memory. -/
  slots : α → List Slot
  /-- The struct at a place in memory. -/
  ofSlots : List Slot → α
  ofSlots_slots : ∀ a, ofSlots (slots a) = a
  haveShapes : ∀ a, HaveShapes fieldsAt (fieldsAt fields) (slots a)

/-- A message of strings and integers, as it is after a round trip. -/
class LeafMessage (α : Type) extends Message α where
  leaf : LeafTable (fieldsAt fields)
  /-- Its strings end inside their arrays. -/
  Terminated : α → Prop
  terminated_slots : ∀ a, Terminated a → ∀ s ∈ slots a, s.Terminated
  /-- The struct that is received. -/
  received : α → α
  slots_received : ∀ a, slots (received a) = (slots a).map Nanopb.received

/-! ## Members -/

theorem CharArray.ofBytes_bytes {n : Nat} (a : CharArray n) : CharArray.ofBytes n a.bytes = a := by
  obtain ⟨bytes, h⟩ := a
  simp [CharArray.ofBytes, ← h]

/-- Padding keeps the string. -/
theorem CharArray.padded_str {n : Nat} (a : CharArray n) (h : a.Terminated) :
    a.padded.str = a.str := by
  have hlt := cString_length_lt h
  rw [a.length_eq] at hlt
  obtain ⟨k, hk⟩ : ∃ k, n - a.str.length = k + 1 := ⟨n - a.str.length - 1, by
    unfold CharArray.str
    omega⟩
  calc a.padded.str = cString (a.str ++ List.replicate (n - a.str.length) 0) := rfl
    _ = cString (a.str ++ 0 :: List.replicate k 0) := by rw [hk, List.replicate_succ]
    _ = a.str := cString_append_zero (zero_notMem_cString _) _

theorem toNat_toUInt64_lt (b : UInt8) : b.toUInt64.toNat < 256 := by
  rw [UInt8.toNat_toUInt64]
  exact b.toNat_lt

theorem toNat_toUInt64_lt_32 (b : UInt32) : b.toUInt64.toNat < 256 ^ 4 := by
  rw [UInt32.toNat_toUInt64]
  exact b.toNat_lt

instance : Message DeviceDescriptor where
  fields := .deviceDescriptor
  slots m := [.chars m.iManufacturer.bytes, .chars m.iProduct.bytes, .uint m.bMaxPacketSize0.toUInt64]
  ofSlots
    | [.chars iManufacturer, .chars iProduct, .uint bMaxPacketSize0] =>
      ⟨.ofBytes 64 iManufacturer, .ofBytes 64 iProduct, bMaxPacketSize0.toUInt32⟩
    | _ => ⟨.zero 64, .zero 64, 0⟩
  ofSlots_slots m := by
    simp [CharArray.ofBytes_bytes]
  haveShapes m := by
    have := toNat_toUInt64_lt_32 m.bMaxPacketSize0
    simp [fieldsAt, HaveShapes, HasShape, PbField.InRange, Slot.htype, validDataSize,
      CharArray.length_eq] at this ⊢
    omega

instance : Message HIDReport where
  fields := .hidReport
  slots m := [.chars m.data.bytes]
  ofSlots
    | [.chars data] => ⟨.ofBytes 256 data⟩
    | _ => ⟨.zero 256⟩
  ofSlots_slots m := by
    simp [CharArray.ofBytes_bytes]
  haveShapes m := by
    simp [fieldsAt, HaveShapes, HasShape, PbField.InRange, Slot.htype, CharArray.length_eq]

instance : Message InputReport where
  fields := .inputReport
  slots m := [.chars m.data.bytes]
  ofSlots
    | [.chars data] => ⟨.ofBytes 64 data⟩
    | _ => ⟨.zero 64⟩
  ofSlots_slots m := by
    simp [CharArray.ofBytes_bytes]
  haveShapes m := by
    simp [fieldsAt, HaveShapes, HasShape, PbField.InRange, Slot.htype, CharArray.length_eq]

instance : Message Packet where
  fields := .packet
  slots m := [.chars m.data.bytes, .uint m.sequenceNumber.toUInt64, .uint m.crc.toUInt64,
    .uint m.flag.toUInt64]
  ofSlots
    | [.chars data, .uint sequenceNumber, .uint crc, .uint flag] =>
      ⟨.ofBytes 16 data, sequenceNumber.toUInt8, crc.toUInt8, flag.toUInt32⟩
    | _ => .initZero
  ofSlots_slots m := by
    simp [CharArray.ofBytes_bytes]
  haveShapes m := by
    have h1 := toNat_toUInt64_lt m.sequenceNumber
    have h2 := toNat_toUInt64_lt m.crc
    have h3 := toNat_toUInt64_lt_32 m.flag
    simp [fieldsAt, HaveShapes, HasShape, PbField.InRange, Slot.htype, validDataSize,
      CharArray.length_eq] at h1 h2 h3 ⊢
    omega

/-- The tables of all messages but `UnionMessage` hold required scalars only. -/
theorem leafTable : ∀ a ∈ [FieldsAddr.deviceDescriptor, .hidReport, .inputReport, .packet],
    LeafTable (fieldsAt a) := by
  intro a ha
  simp only [List.mem_cons, List.not_mem_nil, or_false] at ha
  rcases ha with rfl | rfl | rfl | rfl <;> constructor <;> decide

theorem received_chars {n : Nat} (a : CharArray n) :
    received (.chars a.bytes) = .chars a.padded.bytes := by
  rw [received, a.length_eq]
  rfl

instance : LeafMessage DeviceDescriptor where
  leaf := leafTable .deviceDescriptor (by decide)
  Terminated m := m.iManufacturer.Terminated ∧ m.iProduct.Terminated
  terminated_slots m h := by
    simpa [Message.slots, Slot.Terminated, CharArray.Terminated] using h
  received m := ⟨m.iManufacturer.padded, m.iProduct.padded, m.bMaxPacketSize0⟩
  slots_received m := by
    simp only [Message.slots, List.map_cons, List.map_nil, received_chars]
    rfl

instance : LeafMessage HIDReport where
  leaf := leafTable .hidReport (by decide)
  Terminated m := m.data.Terminated
  terminated_slots m h := by
    simpa [Message.slots, Slot.Terminated, CharArray.Terminated] using h
  received m := ⟨m.data.padded⟩
  slots_received m := by
    simp only [Message.slots, List.map_cons, List.map_nil, received_chars]

instance : LeafMessage InputReport where
  leaf := leafTable .inputReport (by decide)
  Terminated m := m.data.Terminated
  terminated_slots m h := by
    simpa [Message.slots, Slot.Terminated, CharArray.Terminated] using h
  received m := ⟨m.data.padded⟩
  slots_received m := by
    simp only [Message.slots, List.map_cons, List.map_nil, received_chars]

instance : LeafMessage Packet where
  leaf := leafTable .packet (by decide)
  Terminated m := m.data.Terminated
  terminated_slots m h := by
    simpa [Message.slots, Slot.Terminated, CharArray.Terminated] using h
  received m := { m with data := m.data.padded }
  slots_received m := by
    simp only [Message.slots, List.map_cons, List.map_nil, received_chars]
    rfl

/-- A submessage of `UnionMessage` is a struct of its table. -/
theorem hasShape_struct {α : Type} [Message α] (m : α) (field : PbField FieldsAddr)
    (hleaf : LeafTable (fieldsAt (Message.fields α)))
    (hsum : ((fieldsAt (Message.fields α)).map fun f => f.dataSize + 15).sum < 2 ^ 32)
    (hl : field.ltype = .submessage) (hptr : field.ptr = some (Message.fields α)) :
    HasShape fieldsAt field (.struct (Message.slots m)) := by
  rw [HasShape, hptr]
  exact ⟨hl, Message.haveShapes m,
    (wire_length_le hleaf.required hleaf.scalar (Message.haveShapes m)).trans_lt hsum⟩

instance : Message UnionMessage where
  fields := .unionMessage
  slots m := [
    .optional m.hasDeviceDescriptor (.struct (Message.slots m.deviceDescriptor)),
    .optional m.hasHidReport (.struct (Message.slots m.hidReport)),
    .optional m.hasInputReport (.struct (Message.slots m.inputReport))]
  ofSlots
    | [.optional has1 (.struct ms1), .optional has2 (.struct ms2), .optional has3 (.struct ms3)] =>
      ⟨has1, Message.ofSlots ms1, has2, Message.ofSlots ms2, has3, Message.ofSlots ms3⟩
    | _ => ⟨false, Message.ofSlots [], false, Message.ofSlots [], false, Message.ofSlots []⟩
  ofSlots_slots m := by
    simp [Message.ofSlots_slots]
  haveShapes m := by
    have h1 := hasShape_struct m.deviceDescriptor
      ⟨1, .optional, .submessage, 132, some .deviceDescriptor⟩
      (leafTable .deviceDescriptor (by decide)) (by decide) rfl rfl
    have h2 := hasShape_struct m.hidReport ⟨2, .optional, .submessage, 256, some .hidReport⟩
      (leafTable .hidReport (by decide)) (by decide) rfl rfl
    have h3 := hasShape_struct m.inputReport ⟨3, .optional, .submessage, 64, some .inputReport⟩
      (leafTable .inputReport (by decide)) (by decide) rfl rfl
    simp only [fieldsAt, HaveShapes, Slot.htype, PbField.InRange]
    rw [HasShape, HasShape, HasShape]
    exact ⟨by decide, trivial, h1, by decide, trivial, h2, by decide, trivial, h3, trivial⟩

/-! ## The five types -/

/-- A message of any of the types in `hid.proto`. -/
inductive HidMessage where
  | deviceDescriptor (m : DeviceDescriptor)
  | hidReport (m : HIDReport)
  | inputReport (m : InputReport)
  | unionMessage (m : UnionMessage)
  | packet (m : Packet)

namespace HidMessage

/-- Its table. -/
def fields : HidMessage → FieldsAddr
  | deviceDescriptor _ => .deviceDescriptor
  | hidReport _ => .hidReport
  | inputReport _ => .inputReport
  | unionMessage _ => .unionMessage
  | packet _ => .packet

/-- Its members in memory. -/
def slots : HidMessage → List Slot
  | deviceDescriptor m => Message.slots m
  | hidReport m => Message.slots m
  | inputReport m => Message.slots m
  | unionMessage m => Message.slots m
  | packet m => Message.slots m

theorem haveShapes : ∀ m : HidMessage, HaveShapes fieldsAt (fieldsAt m.fields) m.slots
  | deviceDescriptor m => Message.haveShapes m
  | hidReport m => Message.haveShapes m
  | inputReport m => Message.haveShapes m
  | unionMessage m => Message.haveShapes m
  | packet m => Message.haveShapes m

end HidMessage

end EmbeddedTestbench
