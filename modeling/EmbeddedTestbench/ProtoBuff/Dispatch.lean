import EmbeddedTestbench.ProtoBuff.Walk

/-!
# Dispatching union messages

The registry, the walk and the nested decode together, for a registry in any state that calls of
`add_handler` and `clear_handlers` can bring about. The callbacks decode their message with
`decode_union`, as `decodeCallback` does.

Headlines:
* **`unmarshal_of_type`**: what `unmarshal` does when the walk ends at a type.
* **`unmarshal_union`**: a marshalled `UnionMessage` reaches the handler of the submessage it
  carries, behind any complete foreign fields and in both framings.
* **`unmarshal_first`**: with several submessages the first one does. The others are not looked at,
  and where the first one has no handler `unmarshal` answers `false`, whatever handlers the others
  have.
-/

namespace EmbeddedTestbench.ProtoBuff

open Nanopb IStream EmbeddedTestbench.Lib

variable {C R : Type}

/-! ## The lookup -/

theorem lookup_registered {calls : List (Call FieldsAddr C)} {type : Option FieldsAddr}
    {callback : Option C} (h : mapAfter calls type = some callback) :
    idxValid (findHandler (runCalls calls) type) = true ∧
      ((runCalls calls).at (findHandler (runCalls calls) type)).callback = callback := by
  obtain ⟨i, hi, -, -, hcb⟩ := findHandler_of_mem (runCalls_refines calls) h
  rw [hi]
  refine ⟨idxValid_toIdx (some i), ?_⟩
  have hslot : Fin.ofNat 16 (Int.toNat (i.val : Int)) = i := by
    rw [Int.toNat_natCast]
    exact Fin.ext (Nat.mod_eq_of_lt i.isLt)
  rw [Registry.at, hslot, hcb]

theorem lookup_unregistered {calls : List (Call FieldsAddr C)} {type : Option FieldsAddr}
    (h : mapAfter calls type = none) :
    idxValid (findHandler (runCalls calls) type) = false := by
  rw [findHandler_of_notMem (runCalls_refines calls) h]
  rfl

/-- Only types that were added are in the map. -/
theorem mapAfter_none_of_not_added {calls : List (Call FieldsAddr C)} {type : Option FieldsAddr}
    (h : ∀ callback, .add type callback ∉ calls) : mapAfter calls type = none := by
  induction calls using List.reverseRecOn with
  | nil => rfl
  | append_singleton calls call ih =>
    have ih := ih fun callback hc => h callback (List.mem_append_left _ hc)
    rw [mapAfter, List.foldl_append]
    cases call with
    | clear => rfl
    | add type' callback =>
      have hne : type ≠ type' := by
        rintro rfl
        exact h callback (List.mem_append_right _ (List.mem_singleton.mpr rfl))
      simp only [List.foldl_cons, List.foldl_nil, Call.applyMap, PMap.extend]
      split_ifs
      · rw [Function.update_of_ne hne]
        exact ih
      · exact ih

/-- `unmarshal` when the walk ends at a type, by whether it is registered. -/
theorem unmarshal_of_type (calls : List (Call FieldsAddr C))
    (call : Option C → Option FieldsAddr → IStream → R × IStream) {buf : List UInt8}
    {bufsize : Nat} {delimited : Bool} {stream stream' : IStream} {type : Option FieldsAddr}
    (hs : decodeStream buf bufsize delimited = some stream)
    (ht : decodeUnionmessageType stream = (type, stream')) :
    (∀ callback, mapAfter calls type = some callback →
      unmarshal (runCalls calls) call buf bufsize delimited
        = (true, [⟨callback, stream', type, (call callback type stream').1⟩])) ∧
    (mapAfter calls type = none →
      unmarshal (runCalls calls) call buf bufsize delimited = (false, [])) := by
  have hrun : unmarshal (runCalls calls) call buf bufsize delimited
      = (unmarshalLookupCallback (runCalls calls) call stream).1 := by
    rw [unmarshal, unmarshalWith_eq, hs]
  rw [hrun, unmarshalLookupCallback_fst, ht]
  constructor
  · intro callback hm
    obtain ⟨hvalid, hcb⟩ := lookup_registered hm
    simp only [hvalid, hcb, if_true]
  · intro hm
    simp only [lookup_unregistered hm, Bool.false_eq_true, if_false]

theorem decodeStream_undelimited (b : List UInt8) :
    decodeStream b b.length false = some (window b [] none) := by
  rw [decodeStream, pbIstreamFromBuffer_self]
  rfl

theorem decodeStream_delimited {p : List UInt8} (hp : p.length < 2 ^ 32) (w : List UInt8) :
    decodeStream (lengthPrefixed p ++ w) (lengthPrefixed p ++ w).length true
      = some (window p w none) := by
  have := makeSubstream_lengthPrefixed hp w [] none
  rw [decodeStream, if_pos rfl, pbIstreamFromBuffer_self, this, List.append_nil]

/-! ## Union messages -/

/-- The submessage of a union message. -/
inductive Submessage where
  | deviceDescriptor (m : DeviceDescriptor)
  | hidReport (m : HIDReport)
  | inputReport (m : InputReport)

namespace Submessage

/-- Its type. -/
def type : Submessage → FieldsAddr
  | deviceDescriptor _ => .deviceDescriptor
  | hidReport _ => .hidReport
  | inputReport _ => .inputReport

/-- Its tag in `UnionMessage`. -/
def tag : Submessage → Nat
  | deviceDescriptor _ => 1
  | hidReport _ => 2
  | inputReport _ => 3

theorem tag_le (sub : Submessage) : sub.tag ≤ 3 := by
  cases sub <;> simp [tag]

/-- Its strings end inside their arrays. -/
def Terminated : Submessage → Prop
  | deviceDescriptor m => m.iManufacturer.Terminated ∧ m.iProduct.Terminated
  | hidReport m => m.data.Terminated
  | inputReport m => m.data.Terminated

/-- The bytes of the submessage. -/
def bytes : Submessage → List UInt8
  | deviceDescriptor m => encoding m
  | hidReport m => encoding m
  | inputReport m => encoding m

/-- The struct at `dest` has the same strings and the same integer. -/
def Same (dest : List Slot) : Submessage → Prop
  | deviceDescriptor m => ∃ m' : DeviceDescriptor, dest = Message.slots m' ∧
      m'.iManufacturer.str = m.iManufacturer.str ∧ m'.iProduct.str = m.iProduct.str ∧
      m'.bMaxPacketSize0 = m.bMaxPacketSize0
  | hidReport m => ∃ m' : HIDReport, dest = Message.slots m' ∧ m'.data.str = m.data.str
  | inputReport m => ∃ m' : InputReport, dest = Message.slots m' ∧ m'.data.str = m.data.str

end Submessage

/-- The submessage of a union message that has exactly one. -/
def only (m : UnionMessage) : Option Submessage :=
  match m.hasDeviceDescriptor, m.hasHidReport, m.hasInputReport with
  | true, false, false => some (.deviceDescriptor m.deviceDescriptor)
  | false, true, false => some (.hidReport m.hidReport)
  | false, false, true => some (.inputReport m.inputReport)
  | _, _, _ => none

/-- The submessage of a union message that comes first on the wire. -/
def first (m : UnionMessage) : Option Submessage :=
  if m.hasDeviceDescriptor then some (.deviceDescriptor m.deviceDescriptor)
  else if m.hasHidReport then some (.hidReport m.hidReport)
  else if m.hasInputReport then some (.inputReport m.inputReport)
  else none

/-- The structs that the callbacks decode into, with anything in them. -/
structure Dests where
  deviceDescriptor : DeviceDescriptor
  hidReport : HIDReport
  inputReport : InputReport

/-- The struct for a type. -/
def Dests.slots (dests : Dests) : FieldsAddr → List Slot
  | .deviceDescriptor => Message.slots dests.deviceDescriptor
  | .hidReport => Message.slots dests.hidReport
  | .inputReport => Message.slots dests.inputReport
  | _ => []

theorem Submessage.bytes_length_le (sub : Submessage) : sub.bytes.length ≤ 300 := by
  cases sub with
  | deviceDescriptor m => exact (encoding_length_le m).trans (by decide)
  | hidReport m => exact (encoding_length_le m).trans (by decide)
  | inputReport m => exact (encoding_length_le m).trans (by decide)

/-- `decode_union` on the submessage. -/
theorem decodeUnion_submessage (sub : Submessage) (hterm : sub.Terminated) (dests : Dests)
    (r t : List UInt8) (e : Option String) :
    ∃ dest, sub.Same dest ∧
      decodeUnion sub.type (dests.slots sub.type) (window (lengthPrefixed sub.bytes ++ r) t e)
        = ((true, dest), window r t e) := by
  have hlen : sub.bytes.length < 2 ^ 32 := sub.bytes_length_le.trans_lt (by decide)
  cases sub with
  | deviceDescriptor m =>
    refine ⟨Message.slots (LeafMessage.received m), ⟨LeafMessage.received m, rfl, ?_, ?_, rfl⟩,
      decodeUnion_frame m dests.deviceDescriptor hterm hlen r t e⟩
    · exact m.iManufacturer.padded_str hterm.1
    · exact m.iProduct.padded_str hterm.2
  | hidReport m =>
    exact ⟨Message.slots (LeafMessage.received m),
      ⟨LeafMessage.received m, rfl, m.data.padded_str hterm⟩,
      decodeUnion_frame m dests.hidReport hterm hlen r t e⟩
  | inputReport m =>
    exact ⟨Message.slots (LeafMessage.received m),
      ⟨LeafMessage.received m, rfl, m.data.padded_str hterm⟩,
      decodeUnion_frame m dests.inputReport hterm hlen r t e⟩

/-- Its record in a union message. -/
def Submessage.record (sub : Submessage) : List UInt8 :=
  Base128.encode (8 * sub.tag + 2) ++ lengthPrefixed sub.bytes

/-- The encoding of a union message: the records of the submessages that are there. -/
theorem encoding_records (m : UnionMessage) : encoding m
    = (if m.hasDeviceDescriptor then (Submessage.deviceDescriptor m.deviceDescriptor).record
        else []) ++
      ((if m.hasHidReport then (Submessage.hidReport m.hidReport).record else []) ++
        (if m.hasInputReport then (Submessage.inputReport m.inputReport).record else [])) := by
  have hwire : ∀ tag ptr bs, keyBytes (⟨tag, .optional, .submessage, bs, ptr⟩ : PbField FieldsAddr)
      = Base128.encode (8 * tag + 2) := fun _ _ _ => rfl
  simp only [encoding, Message.slots, Message.fields, fieldsAt, wire, wireData, Slot.has, hwire,
    Submessage.record, Submessage.tag, Submessage.bytes, List.append_nil]

theorem Submessage.record_length_le (sub : Submessage) : sub.record.length ≤ 306 := by
  have hsub := sub.bytes_length_le
  have hpre := lengthPrefixed_length_le (hsub.trans_lt (by decide))
  have hkey : (Base128.encode (8 * sub.tag + 2)).length ≤ 1 :=
    Base128.encode_length_le 0 _ (by have := sub.tag_le; omega)
  rw [record, List.length_append]
  omega

theorem encoding_union_length_le (m : UnionMessage) : (encoding m).length ≤ 1000 := by
  have hpart : ∀ (has : Bool) (sub : Submessage),
      (if has then sub.record else []).length ≤ 306 := by
    intro has sub
    split_ifs
    · exact sub.record_length_le
    · exact Nat.zero_le _
  have h1 := hpart m.hasDeviceDescriptor (.deviceDescriptor m.deviceDescriptor)
  have h2 := hpart m.hasHidReport (.hidReport m.hidReport)
  have h3 := hpart m.hasInputReport (.inputReport m.inputReport)
  rw [encoding_records, List.length_append, List.length_append]
  omega

theorem encoding_union_lt (m : UnionMessage) : (encoding m).length < 2 ^ 32 :=
  (encoding_union_length_le m).trans_lt (by decide)

/-- `marshal` of a union message into a buffer that has room for it. -/
theorem marshalBytes_union (m : UnionMessage) {delimited : Bool} {buf : List UInt8}
    (hbuf : (marshalled m delimited).length ≤ buf.length) :
    marshalBytes (Message.slots m) .unionMessage buf buf.length delimited = marshalled m delimited :=
  marshalBytes_eq m (encoding_union_lt m) hbuf

/-- A union message with one submessage. -/
theorem encoding_union {m : UnionMessage} {sub : Submessage} (h : only m = some sub) :
    encoding m = Base128.encode (8 * sub.tag + 2) ++ lengthPrefixed sub.bytes := by
  obtain ⟨has1, m1, has2, m2, has3, m3⟩ := m
  rw [encoding_records, ← Submessage.record]
  unfold only at h
  simp only at h
  split at h <;> first | (obtain rfl := Option.some.inj h) | exact absurd h (by simp)
  all_goals simp

/-- A union message starts with the key and the length of its first submessage. -/
theorem encoding_first {m : UnionMessage} {sub : Submessage} (h : first m = some sub) :
    ∃ rest, encoding m
      = Base128.encode (8 * sub.tag + 2) ++ (lengthPrefixed sub.bytes ++ rest) := by
  have hrecord : ∀ {sub : Submessage} (rest : List UInt8), sub.record ++ rest
      = Base128.encode (8 * sub.tag + 2) ++ (lengthPrefixed sub.bytes ++ rest) :=
    fun rest => List.append_assoc _ _ rest
  rw [encoding_records]
  unfold first at h
  split_ifs at h with h1 h2 h3 <;> obtain rfl := Option.some.inj h
  · rw [if_pos h1]
    exact ⟨_, hrecord _⟩
  · rw [if_neg h1, if_pos h2, List.nil_append]
    exact ⟨_, hrecord _⟩
  · rw [if_neg h1, if_neg h2, if_pos h3, List.nil_append, List.nil_append]
    exact ⟨[], by rw [← hrecord, List.append_nil]⟩

theorem first_of_only {m : UnionMessage} {sub : Submessage} (h : only m = some sub) :
    first m = some sub := by
  obtain ⟨has1, m1, has2, m2, has3, m3⟩ := m
  unfold only at h
  simp only at h
  split at h <;> first | (obtain rfl := Option.some.inj h) | exact absurd h (by simp)
  all_goals rfl

/-- The key of a submessage is where the walk ends. -/
theorem unionAt_submessage (sub : Submessage) (x : List UInt8) :
    UnionAt (Base128.encode (8 * sub.tag + 2) ++ x) sub.type x := by
  have htag := sub.tag_le
  have hkey : Wire.Varint32 (Base128.encode (8 * sub.tag + 2)) (8 * sub.tag + 2) :=
    ⟨⟨Base128.isVarint_encode _, Base128.value_encode _⟩, by omega⟩
  refine ⟨_, sub.tag, rfl, isKey_of_varint32 ⟨hkey, by omega, by decide⟩, ?_⟩
  cases sub with
  | deviceDescriptor => exact .deviceDescriptor
  | hidReport => exact .hidReport
  | inputReport => exact .inputReport

/-- What `unmarshal` has to do with a buffer that carries `sub`. -/
def Dispatches (calls : List (Call FieldsAddr C)) (dests : Dests) (sub : Submessage)
    (buf : List UInt8) (delimited : Bool) : Prop :=
  (∀ callback, mapAfter calls (some sub.type) = some callback →
    ∃ stream dest, sub.Same dest ∧
      unmarshal (runCalls calls) (decodeCallback dests.slots) buf buf.length delimited
        = (true, [⟨callback, stream, some sub.type, (true, dest)⟩])) ∧
  (mapAfter calls (some sub.type) = none →
    unmarshal (runCalls calls) (decodeCallback dests.slots) buf buf.length delimited = (false, []))

/-- The stream that holds a message behind complete foreign fields, with anything behind it. -/
theorem dispatches_of_stream {calls : List (Call FieldsAddr C)} {m : UnionMessage}
    {sub : Submessage} (hm : first m = some sub) (hterm : sub.Terminated) (dests : Dests)
    {u r t buf : List UInt8} {delimited : Bool} (hu : Wire.Fields Accepts Accepts Foreign u)
    (hs : decodeStream buf buf.length delimited = some (window (u ++ (encoding m ++ r)) t none)) :
    Dispatches calls dests sub buf delimited := by
  obtain ⟨rest, hrest⟩ := encoding_first hm
  rw [hrest, List.append_assoc, List.append_assoc] at hs
  obtain ⟨e, htype⟩ := decodeUnionmessageType_fields hu
    (unionAt_submessage sub (lengthPrefixed sub.bytes ++ (rest ++ r))) t none
  obtain ⟨hreg, hunreg⟩ := unmarshal_of_type calls (decodeCallback dests.slots) hs htype
  refine ⟨fun callback hcb => ?_, hunreg⟩
  obtain ⟨dest, hsame, hdec⟩ := decodeUnion_submessage sub hterm dests (rest ++ r) t e
  refine ⟨window (lengthPrefixed sub.bytes ++ (rest ++ r)) t e, dest, hsame, ?_⟩
  rw [hreg callback hcb, decodeCallback, hdec]

/-- A union message behind complete foreign fields whose length prefixes fit into 32 bits, in both
framings. In a frame of less than `2 ^ 32` bytes every length prefix fits. -/
theorem dispatches_first (calls : List (Call FieldsAddr C)) {m : UnionMessage} {sub : Submessage}
    (hm : first m = some sub) (hterm : sub.Terminated) (dests : Dests) {u : List UInt8}
    (hu : Wire.Fields Wire.Varint32 Wire.AnyVarint Foreign u) (w : List UInt8) :
    (Wire.Fields Wire.Varint32 Wire.Varint32 Foreign u →
      Dispatches calls dests sub (u ++ (encoding m ++ w)) false) ∧
    ((u ++ encoding m).length < 2 ^ 32 →
      Dispatches calls dests sub
        (Base128.encode (u ++ encoding m).length ++ (u ++ encoding m) ++ w) true) := by
  have hwiden : ∀ {u}, Wire.Fields Wire.Varint32 Wire.Varint32 Foreign u →
      Wire.Fields Accepts Accepts Foreign u := fun hu =>
    hu.mono (fun _ _ => accepts_of_varint32) (fun _ _ => accepts_of_varint32) (fun _ _ => id)
  constructor
  · intro hu'
    refine dispatches_of_stream hm hterm dests (hwiden hu') (r := w) (t := []) ?_
    exact decodeStream_undelimited _
  · intro hlt
    refine dispatches_of_stream hm hterm dests (r := []) (t := w)
      (hwiden (hu.mono_of_length (by rw [List.length_append] at hlt; omega))) ?_
    rw [List.append_nil]
    exact decodeStream_delimited hlt w

/-- **A marshalled union message reaches its handler**, behind complete foreign fields whose length
prefixes fit into 32 bits, with anything behind it, and in both framings. In a frame of less than
`2 ^ 32` bytes every length prefix fits. -/
theorem unmarshal_union (calls : List (Call FieldsAddr C)) (m : UnionMessage) (sub : Submessage)
    (hm : only m = some sub) (hterm : sub.Terminated) (dests : Dests) (u w buf : List UInt8)
    (hu : Wire.Fields Wire.Varint32 Wire.AnyVarint Foreign u)
    (hbuf : (encoding m).length ≤ buf.length) :
    let e := marshalBytes (Message.slots m) .unionMessage buf buf.length false
    (Wire.Fields Wire.Varint32 Wire.Varint32 Foreign u →
      Dispatches calls dests sub (u ++ (e ++ w)) false) ∧
    ((u ++ e).length < 2 ^ 32 →
      Dispatches calls dests sub (Base128.encode (u ++ e).length ++ (u ++ e) ++ w) true) := by
  have he : marshalBytes (Message.slots m) .unionMessage buf buf.length false = encoding m :=
    marshalBytes_union m hbuf
  rw [he]
  exact dispatches_first calls (first_of_only hm) hterm dests hu w

/-- An empty report behind a field with tag 4, in both framings. -/
theorem unmarshal_union_report :
    let report : HIDReport := ⟨.zero 256⟩
    let m : UnionMessage := ⟨false, ⟨.zero 64, .zero 64, 0⟩, true, report, false, ⟨.zero 64⟩⟩
    let buf := List.replicate 8 0xFF
    let e := marshalBytes (Message.slots m) .unionMessage buf buf.length false
    let dests : Dests := ⟨⟨.zero 64, .zero 64, 0⟩, report, ⟨.zero 64⟩⟩
    let calls : List (Call FieldsAddr Unit) := [.add (some .hidReport) (some ())]
    let u := [0x20, 0x07]
    Dispatches calls dests (.hidReport report) (u ++ (e ++ [0xFF])) false ∧
      Dispatches calls dests (.hidReport report)
        (Base128.encode (u ++ e).length ++ (u ++ e) ++ [0xFF]) true := by
  intro report m buf e dests calls u
  have hfield : Wire.Field Wire.Varint32 Wire.Varint32 0 4 u :=
    ⟨⟨[0x20], [0x07], rfl, by decide, .varint (by decide)⟩, by decide⟩
  have hfields : Wire.Fields Wire.Varint32 Wire.Varint32 Foreign u := hfield.single (by decide)
  have hterm : report.data.Terminated := by decide +kernel
  obtain ⟨hplain, hframed⟩ := unmarshal_union calls m (.hidReport report) rfl hterm dests u [0xFF]
    buf (hfields.mono (fun _ _ => id) (fun _ _ h => h.1) fun _ _ => id) (by decide +kernel)
  exact ⟨hplain hfields, hframed (by decide +kernel)⟩

/-! ## Several submessages

The fields of `UnionMessage` are optional, so a sender may fill in more than one of them, and
`pb_encode` writes all of them. `decode_unionmessage_type` stops at the first. -/

/-- **The first submessage reaches its handler, and no other does**: behind complete foreign fields
whose length prefixes fit into 32 bits, with anything behind the message, and in both framings. In a
frame of less than `2 ^ 32` bytes every length prefix fits. -/
theorem unmarshal_first (calls : List (Call FieldsAddr C)) (m : UnionMessage) (sub : Submessage)
    (hm : first m = some sub) (hterm : sub.Terminated) (dests : Dests) (u w buf : List UInt8)
    (hu : Wire.Fields Wire.Varint32 Wire.AnyVarint Foreign u)
    (hbuf : (encoding m).length ≤ buf.length) :
    let e := marshalBytes (Message.slots m) .unionMessage buf buf.length false
    (Wire.Fields Wire.Varint32 Wire.Varint32 Foreign u →
      Dispatches calls dests sub (u ++ (e ++ w)) false) ∧
    ((u ++ e).length < 2 ^ 32 →
      Dispatches calls dests sub (Base128.encode (u ++ e).length ++ (u ++ e) ++ w) true) := by
  have he : marshalBytes (Message.slots m) .unionMessage buf buf.length false = encoding m :=
    marshalBytes_union m hbuf
  rw [he]
  exact dispatches_first calls hm hterm dests hu w

/-- Two reports, of which only the second has a handler. -/
theorem unmarshal_first_two :
    let m : UnionMessage :=
      ⟨false, ⟨.zero 64, .zero 64, 0⟩, true, ⟨.zero 256⟩, true, ⟨.ofBytes 64 [104, 105]⟩⟩
    let buf := List.replicate 16 0xFF
    let dests : Dests := ⟨⟨.zero 64, .zero 64, 0⟩, ⟨.zero 256⟩, ⟨.zero 64⟩⟩
    let calls : List (Call FieldsAddr Unit) := [.add (some .inputReport) (some ())]
    unmarshal (runCalls calls) (decodeCallback dests.slots)
      (marshalBytes (Message.slots m) .unionMessage buf buf.length false)
      (marshalBytes (Message.slots m) .unionMessage buf buf.length false).length false
        = (false, []) := by
  intro m buf dests calls
  have hterm : (⟨.zero 256⟩ : HIDReport).data.Terminated := by decide +kernel
  have hplain := (unmarshal_first calls m (.hidReport ⟨.zero 256⟩) rfl hterm dests [] [] buf .nil
    (by decide +kernel)).1 .nil
  have hnone : mapAfter calls (some .hidReport) = none :=
    mapAfter_none_of_not_added (by simp [calls])
  simpa using hplain.2 hnone

/-! ## A length prefix that is too long -/

/-- `pb_decode_varint32` rejects the length prefix `2 ^ 32`. -/
theorem pbDecodeVarint32_overflow (r t : List UInt8) (e : Option String) :
    pbDecodeVarint32 (window (0x80 :: 0x80 :: 0x80 :: 0x80 :: 0x10 :: r) t e)
      = (none, window r t (e.or (some "varint overflow"))) := by
  have hlast : (0x10 : UInt8) &&& 0x80 = 0 := by decide
  have hhigh : ¬ (0x10 : UInt8) &&& 0x70 = 0 := by decide
  unfold pbDecodeVarint32
  rw [pbDecodeVarint32Eof_cons, if_neg (by decide)]
  simp [varint32Loop, pbReadbyte_cons, varint32Step, Except.toOption, hlast, hhigh]

/-- A zero key ends the walk. -/
theorem pbDecodeTag_zero (r t : List UInt8) (e : Option String) :
    pbDecodeTag (window (0 :: r) t e) = (.stop true, window r t e) := by
  unfold pbDecodeTag
  rw [pbDecodeVarint32Eof_cons, if_pos (by decide)]
  rfl

/-- Behind the failed skip the walk meets a zero, and ends. -/
theorem decodeUnionmessageType_overflow (r t : List UInt8) (e : Option String) :
    (decodeUnionmessageType
      (window (0x22 :: 0x80 :: 0x80 :: 0x80 :: 0x80 :: 0x10 :: 0 :: r) t e)).1 = none := by
  have hkey : IsKey [0x22] 2 4 := isKey_of_varint32 (by decide)
  have hptr : unionPtr 2 4 = none := unionPtr_eq_none.mpr (by decide)
  have hskip : pbSkipField (window (0x80 :: 0x80 :: 0x80 :: 0x80 :: 0x10 :: 0 :: r) t e) 2
      = (false, window (0 :: r) t (e.or (some "varint overflow"))) := by
    have hstring : ∀ s, pbSkipField s 2 = pbSkipString s := fun _ => rfl
    rw [hstring, pbSkipString, pbDecodeVarint32_overflow]
  rw [decodeUnionmessageType_eq, ← List.singleton_append, hkey.reads]
  simp only [hptr, hskip]
  rw [decodeUnionmessageType_eq, pbDecodeTag_zero]

/-- A complete field of `2 ^ 32` bytes is foreign, and the message behind it is not found. -/
theorem unmarshal_misses_behind_long_field :
    let report : HIDReport := ⟨.zero 256⟩
    let m : UnionMessage :=
      ⟨false, ⟨.zero 64, .zero 64, 0⟩, true, report, false, ⟨.zero 64⟩⟩
    let e := marshalBytes (Message.slots m) .unionMessage (List.replicate 300 0) 300 false
    let u := [0x22] ++ ([0x80, 0x80, 0x80, 0x80, 0x10] ++ List.replicate (2 ^ 32) 0)
    let dests : Dests := ⟨⟨.zero 64, .zero 64, 0⟩, report, ⟨.zero 64⟩⟩
    let calls : List (Call FieldsAddr Unit) := [.add (some .hidReport) (some ())]
    only m = some (.hidReport report) ∧ report.data.Terminated ∧
      Wire.Fields Wire.Varint32 Wire.AnyVarint Foreign u ∧
      ¬ Dispatches calls dests (.hidReport report) (u ++ (e ++ [])) false := by
  intro report m e u dests calls
  refine ⟨rfl, by decide +kernel, ?_, ?_⟩
  · have hlength : Wire.AnyVarint [0x80, 0x80, 0x80, 0x80, 0x10]
        (List.replicate (2 ^ 32) (0 : UInt8)).length := by
      rw [List.length_replicate]
      decide
    have hfield : Wire.Field Wire.Varint32 Wire.AnyVarint 2 4 u :=
      ⟨⟨[0x22], _, rfl, by decide, .bytes hlength⟩, by decide⟩
    exact hfield.single (by decide)
  · rintro ⟨hreg, -⟩
    have hzero : List.replicate (2 ^ 32) (0 : UInt8) = 0 :: List.replicate 4294967295 0 :=
      List.replicate_succ
    have hnone := decodeUnionmessageType_overflow (List.replicate 4294967295 0 ++ (e ++ [])) []
      none
    have hbuf : u ++ (e ++ []) = 0x22 :: 0x80 :: 0x80 :: 0x80 :: 0x80 :: 0x10 :: 0 ::
        (List.replicate 4294967295 0 ++ (e ++ [])) := by
      simp only [u, hzero, List.cons_append, List.nil_append]
    rw [← hbuf] at hnone
    obtain ⟨stream, dest, -, htrue⟩ := hreg (some ()) (by
      rw [mapAfter_single]
      rfl)
    have hnull : mapAfter calls none = none :=
      mapAfter_none_of_not_added fun callback => by simp [calls]
    have hfalse := (unmarshal_of_type calls (decodeCallback dests.slots)
      (decodeStream_undelimited (u ++ (e ++ []))) (Prod.ext hnone rfl)).2 hnull
    exact absurd (htrue.symm.trans hfalse) (by simp)

end EmbeddedTestbench.ProtoBuff
