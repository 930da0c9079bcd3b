import EmbeddedTestbench.PacketSerial.Delivery
import EmbeddedTestbench.ProtoBuff.Dispatch

/-!
# A message from one side to the other (`ProtoBuff.c`, `PacketSerial.c`)

One side marshals a `UnionMessage` and sends the bytes. The other side decodes the packets, puts
their strings in a row and unmarshals what it has. A packet says nothing of its length, so a zero
byte ends its string, and a full last chunk is not sent: `Intact` are the bytes that arrive.

Headlines:
* **`carried_eq_iff`**: the bytes arrive when they are `Intact`, and fewer arrive otherwise.
* `carried_head`: what comes first arrives in any case.
* **`endToEnd_iff`**: the handler gets the message exactly when its strings are not empty, its
  integer is not zero, and its bytes do not fill the last of several packets.
* **`endToEnd_lost`**: otherwise a delimited message is rejected without a call, and without a
  delimiter the handler is called, cannot decode, and `unmarshal` answers `true`.
-/

namespace EmbeddedTestbench

open Nanopb IStream ProtoBuff PacketSerial EmbeddedTestbench.Lib

/-! ## The bytes -/

section Carried

/-- The bytes that a receiver puts together of a `send`. -/
def carried (q : Packet) (answer : List TxCall → List UInt8 → Nat → Bool) (bytes : List UInt8) :
    List UInt8 :=
  receivedData q (send (fun calls => some (answer calls)) bytes bytes.length).2

/-- No zero, and no full last chunk behind others. -/
def Intact (bytes : List UInt8) : Prop :=
  0 ∉ bytes ∧ ¬ (15 < bytes.length ∧ bytes.length % 15 = 0)

instance (bytes : List UInt8) : Decidable (Intact bytes) :=
  inferInstanceAs (Decidable (_ ∧ _))

theorem cString_append_of_notMem {h : List UInt8} (hzero : 0 ∉ h) (r : List UInt8) :
    cString (h ++ r) = h ++ cString r := by
  unfold cString
  refine List.takeWhile_append_of_pos fun b hb => ?_
  rw [decide_eq_true_eq]
  rintro rfl
  exact hzero hb

/-- The strings of chunks are the chunks, or a zero has cut one of them. -/
theorem flatMap_cString_cases (chunks : List (List UInt8)) :
    ((∀ chunk ∈ chunks, 0 ∉ chunk) ∧ chunks.flatMap cString = chunks.flatten) ∨
      (chunks.flatMap cString).length < chunks.flatten.length := by
  induction chunks with
  | nil => exact Or.inl ⟨List.forall_mem_nil _, rfl⟩
  | cons chunk chunks ih =>
    have hlen : (chunks.flatMap cString).length ≤ chunks.flatten.length := by
      rcases ih with ⟨-, heq⟩ | hlt
      · rw [heq]
      · exact hlt.le
    rw [List.flatMap_cons, List.flatten_cons, List.length_append, List.length_append]
    by_cases hzero : 0 ∈ chunk
    · have := cString_length_lt hzero
      exact Or.inr (by omega)
    · rw [cString_of_notMem hzero]
      rcases ih with ⟨hall, heq⟩ | hlt
      · exact Or.inl ⟨List.forall_mem_cons.mpr ⟨hzero, hall⟩, by rw [heq]⟩
      · exact Or.inr (by omega)

variable {bytes : List UInt8} (h : Sendable bytes.length) (q : Packet)
  (answer : List TxCall → List UInt8 → Nat → Bool)
include h

/-- Bytes that are not intact do not all arrive. -/
theorem carried_length_lt (hlost : ¬ Intact bytes) : (carried q answer bytes).length < bytes.length := by
  rw [carried, receivedData_send q h answer]
  have hsum := chunkLengths_sum h
  have hflat := flatten_splitLengths_take (chunkLengths bytes.length) bytes
  rcases flatMap_cString_cases ((chunkLengths bytes.length).splitLengths bytes) with
    ⟨hall, heq⟩ | hlt
  · have hcovered := (forall_splitLengths_notMem (chunkLengths bytes.length) bytes 0).mp hall
    rw [heq, hflat, List.length_take]
    by_cases hcut : 15 < bytes.length ∧ bytes.length % 15 = 0
    · rw [if_pos hcut] at hsum
      omega
    · rw [if_neg hcut] at hsum
      rw [hsum, List.take_length] at hcovered
      exact absurd ⟨hcovered, hcut⟩ hlost
  · rw [hflat, List.length_take] at hlt
    omega

/-- **The bytes arrive exactly when they are intact.** -/
theorem carried_eq_iff : carried q answer bytes = bytes ↔ Intact bytes := by
  constructor
  · intro heq
    by_contra hlost
    have hlt := carried_length_lt h q answer hlost
    rw [heq] at hlt
    exact absurd hlt (Nat.lt_irrefl _)
  · rintro ⟨hzero, hcut⟩
    rw [carried, receivedData_of_notMem q h hzero answer, chunkLengths_sum h, if_neg hcut,
      List.take_length]

/-- The first chunk arrives up to its first zero. -/
theorem carried_head {head rest : List UInt8} (hbytes : bytes = head ++ rest) (hzero : 0 ∉ head)
    (hlen : head.length ≤ 15) : ∃ rest', carried q answer bytes = head ++ rest' := by
  have hfirst : ∃ l ls, chunkLengths bytes.length = l :: ls ∧ head.length ≤ l := by
    have htotal : head.length ≤ bytes.length := by
      rw [hbytes, List.length_append]
      omega
    rw [chunkLengths_eq h]
    cases hk : (bytes.length - 1) / 15 with
    | zero =>
      refine ⟨lastChunk bytes.length, [], rfl, ?_⟩
      have hshort : bytes.length ≤ 15 := by omega
      rw [lastChunk, if_pos hshort]
      exact htotal
    | succ k => exact ⟨15, _, rfl, hlen⟩
  obtain ⟨l, ls, hl, hle⟩ := hfirst
  have htake : bytes.take l = head ++ rest.take (l - head.length) := by
    rw [hbytes, List.take_append, List.take_of_length_le hle]
  rw [carried, receivedData_send q h answer, hl, List.splitLengths_cons, List.flatMap_cons, htake,
    cString_append_of_notMem hzero, List.append_assoc]
  exact ⟨_, rfl⟩

end Carried

/-! ## The marshalled message -/

/-- Its strings are not empty and its integer is not zero: none of its bytes is zero. -/
def ProtoBuff.Submessage.Full : Submessage → Prop
  | .deviceDescriptor m => m.iManufacturer.str ≠ [] ∧ m.iProduct.str ≠ [] ∧ m.bMaxPacketSize0 ≠ 0
  | .hidReport m => m.data.str ≠ []
  | .inputReport m => m.data.str ≠ []

/-- A zero in a string that is sent is its length. -/
theorem zero_mem_lengthPrefixed_iff {bs : List UInt8} (hzero : 0 ∉ bs) :
    0 ∈ lengthPrefixed bs ↔ bs = [] := by
  rw [lengthPrefixed, List.mem_append, Base128.zero_mem_encode_iff, List.length_eq_zero_iff]
  exact or_iff_left hzero

theorem zero_notMem_key {n : Nat} (h : n ≠ 0) : 0 ∉ Base128.encode n := fun hmem =>
  h ((Base128.zero_mem_encode_iff n).mp hmem)

namespace ProtoBuff.Submessage

variable (sub : Submessage)

theorem zero_notMem_bytes_iff : 0 ∉ sub.bytes ↔ sub.Full := by
  have hstring : ∀ {n : Nat} (a : CharArray n), 0 ∈ lengthPrefixed (cString a.bytes) ↔ a.str = [] :=
    fun a => zero_mem_lengthPrefixed_iff (zero_notMem_cString a.bytes)
  have hkey : ∀ f : PbField FieldsAddr, 0 < f.tag → 0 ∉ keyBytes f := fun f hf =>
    zero_notMem_key (by omega)
  cases sub with
  | deviceDescriptor m =>
    have hbytes : (deviceDescriptor m).bytes
        = keyBytes (fieldsAt .deviceDescriptor)[0] ++ lengthPrefixed (cString m.iManufacturer.bytes) ++
          (keyBytes (fieldsAt .deviceDescriptor)[1] ++ lengthPrefixed (cString m.iProduct.bytes) ++
          (keyBytes (fieldsAt .deviceDescriptor)[2] ++
            Base128.encode m.bMaxPacketSize0.toUInt64.toNat)) := by
      simp [bytes, encoding, Message.fields, Message.slots, fieldsAt, wire, wireData, Slot.has]
    have hint : m.bMaxPacketSize0.toUInt64.toNat = 0 ↔ m.bMaxPacketSize0 = 0 := by
      rw [UInt32.toNat_toUInt64, ← UInt32.toNat_inj]
      rfl
    rw [hbytes, Full]
    simp only [List.mem_append, hstring, Base128.zero_mem_encode_iff, hint,
      hkey (fieldsAt .deviceDescriptor)[0] (by decide), hkey (fieldsAt .deviceDescriptor)[1] (by decide),
      hkey (fieldsAt .deviceDescriptor)[2] (by decide), false_or, not_or, ne_eq]
  | hidReport m =>
    have hbytes : (hidReport m).bytes
        = keyBytes (fieldsAt .hidReport)[0] ++ lengthPrefixed (cString m.data.bytes) := by
      simp [bytes, encoding, Message.fields, Message.slots, fieldsAt, wire, wireData, Slot.has]
    rw [hbytes, List.mem_append, hstring, Full]
    simp only [hkey (fieldsAt .hidReport)[0] (by decide), false_or, ne_eq]
  | inputReport m =>
    have hbytes : (inputReport m).bytes
        = keyBytes (fieldsAt .inputReport)[0] ++ lengthPrefixed (cString m.data.bytes) := by
      simp [bytes, encoding, Message.fields, Message.slots, fieldsAt, wire, wireData, Slot.has]
    rw [hbytes, List.mem_append, hstring, Full]
    simp only [hkey (fieldsAt .inputReport)[0] (by decide), false_or, ne_eq]

theorem bytes_ne_nil : sub.bytes ≠ [] := by
  cases sub with
  | _ m =>
    simp [bytes, encoding, Message.fields, Message.slots, fieldsAt, wire, Slot.has, keyBytes_ne_nil]

end ProtoBuff.Submessage

section Marshalled

variable {m : UnionMessage} {sub : Submessage} (hm : only m = some sub)
include hm

theorem encoding_ne_nil : encoding m ≠ [] := by
  rw [encoding_union hm]
  exact List.append_ne_nil_of_left_ne_nil (Base128.isVarint_encode _).ne_nil _

theorem zero_notMem_marshalled_iff (delimited : Bool) : 0 ∉ marshalled m delimited ↔ sub.Full := by
  have hencoding : 0 ∉ encoding m ↔ sub.Full := by
    have hkey : 0 ∉ Base128.encode (8 * sub.tag + 2) := zero_notMem_key (by omega)
    have hlen : 0 ∉ Base128.encode sub.bytes.length :=
      zero_notMem_key (List.length_pos_of_ne_nil sub.bytes_ne_nil).ne'
    rw [encoding_union hm, lengthPrefixed, List.mem_append, List.mem_append,
      ← sub.zero_notMem_bytes_iff]
    simp only [hkey, hlen, false_or]
  cases delimited with
  | false => exact hencoding
  | true =>
    have hlen : 0 ∉ Base128.encode (encoding m).length :=
      zero_notMem_key (List.length_pos_of_ne_nil (encoding_ne_nil hm)).ne'
    rw [marshalled, if_pos rfl, lengthPrefixed, List.mem_append, ← hencoding]
    simp only [hlen, false_or]

theorem sendable_marshalled (delimited : Bool) : Sendable (marshalled m delimited).length := by
  have hle := encoding_union_length_le m
  have hpos := List.length_pos_of_ne_nil (encoding_ne_nil hm)
  have hframe : (lengthPrefixed (encoding m)).length ≤ (encoding m).length + 5 :=
    lengthPrefixed_length_le (by omega)
  have hgrow : (encoding m).length ≤ (lengthPrefixed (encoding m)).length := by
    rw [lengthPrefixed, List.length_append]
    omega
  cases delimited with
  | false => exact ⟨hpos, by rw [marshalled, if_neg Bool.false_ne_true]; omega⟩
  | true =>
    rw [marshalled, if_pos rfl]
    exact ⟨by omega, by omega⟩

/-- It arrives intact when none of its bytes is zero and it does not fill the last packet. -/
theorem intact_marshalled_iff (delimited : Bool) : Intact (marshalled m delimited) ↔
    sub.Full ∧ ¬ (15 < (marshalled m delimited).length ∧ (marshalled m delimited).length % 15 = 0) :=
  and_congr_left' (zero_notMem_marshalled_iff hm delimited)

end Marshalled

/-! ## The other side -/

variable {C : Type}

/-- What becomes of a message that has lost bytes: it is rejected by its length, or its handler is
called and cannot decode it. -/
def Lost (calls : List (Call FieldsAddr C)) (dests : Dests) (sub : Submessage) (buf : List UInt8)
    (delimited : Bool) : Prop :=
  match delimited with
  | true => unmarshal (runCalls calls) (decodeCallback dests.slots) buf buf.length true = (false, [])
  | false => ∀ callback, mapAfter calls (some sub.type) = some callback → ∃ stream,
      unmarshal (runCalls calls) (decodeCallback dests.slots) buf buf.length false
        = (true, [⟨callback, stream, some sub.type, (false, dests.slots sub.type)⟩])

theorem Lost.not_dispatches {calls : List (Call FieldsAddr C)} {dests : Dests} {sub : Submessage}
    {buf : List UInt8} {delimited : Bool} (h : Lost calls dests sub buf delimited)
    {callback : Option C} (hreg : mapAfter calls (some sub.type) = some callback) :
    ¬ Dispatches calls dests sub buf delimited := by
  rintro ⟨hcall, -⟩
  obtain ⟨stream, dest, -, hrun⟩ := hcall callback hreg
  cases delimited with
  | true => exact absurd (Prod.mk.inj (h.symm.trans hrun)).1 (by simp)
  | false =>
    obtain ⟨stream', hrun'⟩ := h callback hreg
    have hrecord := List.singleton_inj.mp (Prod.mk.inj (hrun'.symm.trans hrun)).2
    exact absurd (congrArg (fun record => record.result.1) hrecord) (by simp)

/-- A frame that is shorter than its length says. -/
theorem lost_delimited (calls : List (Call FieldsAddr C)) (dests : Dests) (sub : Submessage)
    {n : Nat} {r : List UInt8} (hn : n < 2 ^ 32) (hr : r.length < n) :
    Lost calls dests sub (Base128.encode n ++ r) true := by
  have hshort : r.length < (UInt32.ofNat n).toNat := by
    rwa [UInt32.toNat_ofNat', Nat.mod_eq_of_lt hn]
  have hstream : decodeStream (Base128.encode n ++ r) (Base128.encode n ++ r).length true = none := by
    have hmake := makeSubstream_short (pbDecodeVarint32_encode hn) hshort [] none
    rw [decodeStream, if_pos rfl, pbIstreamFromBuffer_self, hmake]
  rw [Lost, unmarshal, unmarshalWith_eq, hstream]

/-- A submessage that is shorter than its length says: the handler is called, and decodes nothing. -/
theorem lost_undelimited (calls : List (Call FieldsAddr C)) (dests : Dests) (sub : Submessage)
    {r : List UInt8} (hr : r.length < sub.bytes.length) :
    Lost calls dests sub
      (Base128.encode (8 * sub.tag + 2) ++ (Base128.encode sub.bytes.length ++ r)) false := by
  intro callback hreg
  have hlen : sub.bytes.length < 2 ^ 32 := sub.bytes_length_le.trans_lt (by decide)
  have hshort : r.length < (UInt32.ofNat sub.bytes.length).toNat := by
    rwa [UInt32.toNat_ofNat', Nat.mod_eq_of_lt hlen]
  have hat := unionAt_submessage sub (Base128.encode sub.bytes.length ++ r)
  obtain ⟨e, htype⟩ := decodeUnionmessageType_fields .nil hat [] none
  rw [List.nil_append] at htype
  refine ⟨window (Base128.encode sub.bytes.length ++ r) [] e, ?_⟩
  rw [(unmarshal_of_type calls (decodeCallback dests.slots) (decodeStream_undelimited _) htype).1
    callback hreg]
  simp only [decodeCallback, decodeUnion,
    makeSubstream_short (pbDecodeVarint32_encode hlen) hshort [] e]

/-- **What is not intact is lost**, in both framings. -/
theorem lost_carried (calls : List (Call FieldsAddr C)) (dests : Dests) {m : UnionMessage}
    {sub : Submessage} (hm : only m = some sub) (q : Packet)
    (answer : List TxCall → List UInt8 → Nat → Bool) {delimited : Bool}
    (hlost : ¬ Intact (marshalled m delimited)) :
    Lost calls dests sub (carried q answer (marshalled m delimited)) delimited := by
  have h := sendable_marshalled hm delimited
  have hlt := carried_length_lt h q answer hlost
  have hprefix : ∀ n < 2 ^ 32, (Base128.encode n).length ≤ 5 := fun n hn =>
    Base128.encode_length_le 4 n (hn.trans (by decide))
  cases delimited with
  | true =>
    have hn := encoding_union_lt m
    have hfive := hprefix _ hn
    obtain ⟨r, hr⟩ := carried_head h q answer rfl
      (zero_notMem_key (List.length_pos_of_ne_nil (encoding_ne_nil hm)).ne') (by omega)
    have hbytes : marshalled m true = Base128.encode (encoding m).length ++ encoding m := rfl
    rw [hr] at hlt ⊢
    rw [hbytes, List.length_append, List.length_append] at hlt
    exact lost_delimited calls dests sub hn (by omega)
  | false =>
    have hlen : sub.bytes.length < 2 ^ 32 := sub.bytes_length_le.trans_lt (by decide)
    have htag := sub.tag_le
    have hkeyFive := hprefix (8 * sub.tag + 2) (by omega)
    have hlenFive := hprefix sub.bytes.length hlen
    have hbytes : marshalled m false
        = (Base128.encode (8 * sub.tag + 2) ++ Base128.encode sub.bytes.length) ++ sub.bytes := by
      rw [marshalled, if_neg Bool.false_ne_true, encoding_union hm, lengthPrefixed,
        List.append_assoc]
    have hzero : 0 ∉ Base128.encode (8 * sub.tag + 2) ++ Base128.encode sub.bytes.length := by
      rw [List.mem_append, not_or]
      exact ⟨zero_notMem_key (by omega),
        zero_notMem_key (List.length_pos_of_ne_nil sub.bytes_ne_nil).ne'⟩
    obtain ⟨r, hr⟩ := carried_head h q answer hbytes hzero (by rw [List.length_append]; omega)
    rw [hr] at hlt ⊢
    simp only [hbytes, List.length_append] at hlt
    rw [List.append_assoc]
    exact lost_undelimited calls dests sub (by omega)

/-- **A message gets from one side to the other** exactly when its strings are not empty, its integer
is not zero and its bytes do not fill the last of several packets. -/
theorem endToEnd_iff (calls : List (Call FieldsAddr C)) (dests : Dests) (m : UnionMessage)
    (sub : Submessage) (hm : only m = some sub) (hterm : sub.Terminated) (callback : Option C)
    (hreg : mapAfter calls (some sub.type) = some callback) (q : Packet)
    (answer : List TxCall → List UInt8 → Nat → Bool) (buf : List UInt8) (delimited : Bool)
    (hbuf : (marshalled m delimited).length ≤ buf.length) :
    let sent := marshalBytes (Message.slots m) .unionMessage buf buf.length delimited
    Dispatches calls dests sub (carried q answer sent) delimited ↔
      sub.Full ∧ ¬ (15 < sent.length ∧ sent.length % 15 = 0) := by
  intro sent
  have hsent : sent = marshalled m delimited := marshalBytes_union m hbuf
  rw [hsent, ← intact_marshalled_iff hm]
  constructor
  · intro hdispatches
    by_contra hlost
    exact (lost_carried calls dests hm q answer hlost).not_dispatches hreg hdispatches
  · intro hintact
    rw [(carried_eq_iff (sendable_marshalled hm delimited) q answer).mpr hintact]
    have hfirst := dispatches_first calls (first_of_only hm) hterm dests .nil []
    simp only [List.nil_append, List.append_nil] at hfirst
    obtain ⟨hplain, hframed⟩ := hfirst
    cases delimited with
    | false => exact hplain .nil
    | true => exact hframed (encoding_union_lt m)

/-- A report with a text in it, without a delimiter. -/
theorem endToEnd_iff_report :
    let report : HIDReport := ⟨.ofBytes 256 [104, 105]⟩
    let m : UnionMessage := ⟨false, ⟨.zero 64, .zero 64, 0⟩, true, report, false, ⟨.zero 64⟩⟩
    let buf := List.replicate 8 0xFF
    let dests : Dests := ⟨⟨.zero 64, .zero 64, 0⟩, ⟨.zero 256⟩, ⟨.zero 64⟩⟩
    let calls : List (Call FieldsAddr Unit) := [.add (some .hidReport) (some ())]
    Dispatches calls dests (.hidReport report) (carried .initZero (fun _ _ _ => true)
      (marshalBytes (Message.slots m) .unionMessage buf buf.length false)) false := by
  intro report m buf dests calls
  have hterm : report.data.Terminated := by decide +kernel
  have hfull : report.data.str ≠ [] := by decide +kernel
  have hmap : mapAfter calls = Function.update PMap.empty (some .hidReport) (some (some ())) :=
    PMap.extend_of_room _ ⟨rfl, by rw [PMap.size_empty]; decide⟩
  have hreg : mapAfter calls (some .hidReport) = some (some ()) := by
    rw [hmap, Function.update_self]
  exact (endToEnd_iff calls dests m (.hidReport report) rfl hterm (some ()) hreg .initZero _ buf false
    (by decide +kernel)).mpr ⟨hfull, by decide +kernel⟩

/-- **What does not get to the other side**: a delimited message is rejected without a call, and of
one without a delimiter the handler gets nothing, while `unmarshal` answers `true`. -/
theorem endToEnd_lost (calls : List (Call FieldsAddr C)) (dests : Dests) (m : UnionMessage)
    (sub : Submessage) (hm : only m = some sub) (q : Packet)
    (answer : List TxCall → List UInt8 → Nat → Bool) (buf : List UInt8) (delimited : Bool)
    (hbuf : (marshalled m delimited).length ≤ buf.length) :
    let sent := marshalBytes (Message.slots m) .unionMessage buf buf.length delimited
    ¬ (sub.Full ∧ ¬ (15 < sent.length ∧ sent.length % 15 = 0)) →
      Lost calls dests sub (carried q answer sent) delimited := by
  intro sent hlost
  have hsent : sent = marshalled m delimited := marshalBytes_union m hbuf
  rw [hsent, ← intact_marshalled_iff hm] at hlost
  rw [hsent]
  exact lost_carried calls dests hm q answer hlost

/-- An empty report, with a delimiter. -/
theorem endToEnd_lost_empty :
    let report : HIDReport := ⟨.zero 256⟩
    let m : UnionMessage := ⟨false, ⟨.zero 64, .zero 64, 0⟩, true, report, false, ⟨.zero 64⟩⟩
    let buf := List.replicate 8 0xFF
    let dests : Dests := ⟨⟨.zero 64, .zero 64, 0⟩, report, ⟨.zero 64⟩⟩
    let calls : List (Call FieldsAddr Unit) := [.add (some .hidReport) (some ())]
    Lost calls dests (.hidReport report) (carried .initZero (fun _ _ _ => true)
      (marshalBytes (Message.slots m) .unionMessage buf buf.length true)) true := by
  intro report m buf dests calls
  have hempty : report.data.str = [] := by decide +kernel
  exact endToEnd_lost calls dests m (.hidReport report) rfl .initZero _ buf true (by decide +kernel)
    fun h => h.1 hempty

end EmbeddedTestbench
