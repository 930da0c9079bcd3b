import EmbeddedTestbench.Nanopb.RoundTrip

/-!
# Several messages in one stream (`pb_encode.c`, `pb_decode.c`)

A message on the wire does not say where it ends. To put several into one stream, a message has its
length in front (`pb_encode_delimited`) or a zero key behind it (`pb_encode_nullterminated`).
`encodeEach` and `decodeEach` are the loops of a caller that sends and receives a list of messages:
the sender stops at a message that has no room, the receiver goes on behind one that is rejected.

`Takes f u a` is `Reads f u a`, but `f` may leave an error message.

Headlines:
* **`decodeEach_blocks`**: each message with its length in front is decoded as if it were alone, also
  behind messages that were rejected.
* **`pbDecodeDelimitedNoinit_reads`**: without the defaults, a message with its length in front is
  merged into the struct.
* **`delimited_roundTrip`**, **`nullterminated_roundTrip`**: what was sent in one stream comes back.
* **`pbGetEncodedSize_exact`**: a message is encoded into the buffers of its encoded size and more.
-/

namespace EmbeddedTestbench.Nanopb

open IStream OStream EmbeddedTestbench.Lib

variable {P : Type}

/-! ## Definitions -/

/-- `pb_encode_nullterminated`. -/
def pbEncodeNullterminated (mem : P → List (PbField P)) (fields : List (PbField P))
    (src : List Slot) : OStream → Bool × OStream :=
  andThenW (pbEncode mem fields src) (pbWrite [0])

/-- `pb_get_encoded_size`: `*size`, or `none` for `false`. -/
def pbGetEncodedSize (mem : P → List (PbField P)) (fields : List (PbField P)) (src : List Slot) :
    Option Nat :=
  match pbEncode mem fields src sizing with
  | (false, _) => none
  | (true, s) => some s.bytesWritten

/-- `pb_decode_delimited_noinit` and `pb_decode_delimited`, which run their own `decode` on the
substream. -/
def decodeDelimited (decode : List Slot → IStream → (Bool × List Slot) × IStream) (dest : List Slot)
    (s : IStream) : (Bool × List Slot) × IStream :=
  match pbMakeStringSubstream s with
  | (none, s) => ((false, dest), s)
  | (some sub, s) =>
    let ((status, dest), sub) := decode dest sub
    match pbCloseStringSubstream s sub with
    | (false, s) => ((false, dest), s)
    | (true, s) => ((status, dest), s)

/-- `pb_decode_delimited_noinit`. -/
def pbDecodeDelimitedNoinit (mem : P → List (PbField P)) (fields : List (PbField P)) :
    List Slot → IStream → (Bool × List Slot) × IStream :=
  decodeDelimited (pbDecodeNoinit mem fields)

/-- `pb_decode_delimited`. -/
def pbDecodeDelimited (mem : P → List (PbField P)) (fields : List (PbField P)) :
    List Slot → IStream → (Bool × List Slot) × IStream :=
  decodeDelimited (pbDecode mem fields)

/-- `pb_decode_nullterminated`. -/
def pbDecodeNullterminated (mem : P → List (PbField P)) (fields : List (PbField P)) :
    List Slot → IStream → (Bool × List Slot) × IStream :=
  pbDecode mem fields

/-- A table and a struct of its type, to be sent or to be received into. -/
structure Job (P : Type) where
  fields : List (PbField P)
  struct : List Slot

/-- One message after the other, up to the first that fails. -/
def encodeEach (encode : List (PbField P) → List Slot → OStream → Bool × OStream) :
    List (Job P) → OStream → Bool × OStream
  | [] => fun s => (true, s)
  | j :: js => andThenW (encode j.fields j.struct) (encodeEach encode js)

/-- One message after the other, whatever became of the one before. -/
def decodeEach
    (decode : List (PbField P) → List Slot → IStream → (Bool × List Slot) × IStream) :
    List (Job P) → IStream → List (Bool × List Slot) × IStream
  | [], s => ([], s)
  | j :: js, s =>
    let (answer, s) := decode j.fields j.struct s
    let (answers, s) := decodeEach decode js s
    (answer :: answers, s)

/-! ## The loops -/

/-- `f` answers `a` and consumes exactly `u`; it may leave an error message. -/
def Takes {α : Type} (f : IStream → α × IStream) (u : List UInt8) (a : α) : Prop :=
  ∀ r t e, ∃ e', f (window (u ++ r) t e) = (a, window r t e')

theorem Reads.takes {α : Type} {f : IStream → α × IStream} {u : List UInt8} {a : α}
    (h : Reads f u a) : Takes f u a := fun r t e => ⟨e, h r t e⟩

section Each

variable {J : Type} {encode : List (PbField P) → List Slot → OStream → Bool × OStream}
  {decode : List (PbField P) → List Slot → IStream → (Bool × List Slot) × IStream}
  {bytes : J → List UInt8} {answer : J → Bool × List Slot} {job : J → Job P}

/-- Messages are sent one behind the other. -/
theorem encodeEach_emits : ∀ {js : List J},
    (∀ j ∈ js, Emits (encode (job j).fields (job j).struct) (bytes j)) →
    Emits (encodeEach encode (js.map job)) (js.flatMap bytes)
  | [], _ => emits_nil
  | j :: js, h => by
    rw [List.map_cons, List.flatMap_cons, encodeEach]
    exact (h j List.mem_cons_self).andThen
      (encodeEach_emits fun k hk => h k (List.mem_cons_of_mem j hk))

/-- Messages are received one behind the other. -/
theorem decodeEach_takes : ∀ {js : List J},
    (∀ j ∈ js, Takes (decode (job j).fields (job j).struct) (bytes j) (answer j)) →
    Takes (decodeEach decode (js.map job)) (js.flatMap bytes) (js.map answer)
  | [], _ => fun r t e => ⟨e, rfl⟩
  | j :: js, h => by
    intro r t e
    obtain ⟨e₁, hj⟩ := h j List.mem_cons_self (js.flatMap bytes ++ r) t e
    obtain ⟨e₂, hjs⟩ := decodeEach_takes (fun k hk => h k (List.mem_cons_of_mem j hk)) r t e₁
    refine ⟨e₂, ?_⟩
    rw [List.map_cons, List.map_cons, List.flatMap_cons, List.append_assoc, decodeEach, hj]
    dsimp only
    rw [hjs]

end Each

/-! ## A length in front -/

variable {mem : P → List (PbField P)} {fields : List (PbField P)} {slots dest : List Slot}

/-- The decoder stops somewhere in the block; the stream is behind it. -/
theorem decodeDelimited_window {decode : List Slot → IStream → (Bool × List Slot) × IStream}
    {p q r t : List UInt8} {e e' : Option String} {answer : Bool × List Slot}
    (hlen : p.length < 2 ^ 32)
    (hrun : decode dest (window p (r ++ t) e) = (answer, window q (r ++ t) e')) :
    decodeDelimited decode dest (window (lengthPrefixed p ++ r) t e) = (answer, window r t e') := by
  have hsize : (UInt32.ofNat p.length).toNat = p.length := by
    rw [UInt32.toNat_ofNat', Nat.mod_eq_of_lt hlen]
  rw [lengthPrefixed, List.append_assoc, decodeDelimited,
    makeSubstream_window (pbDecodeVarint32_encode hlen) hsize.symm]
  dsimp only
  rw [hrun]
  dsimp only
  rw [closeSubstream_window]

/-- **Each message in the stream is decoded as if it were alone**, whatever bytes it has, and whatever
became of those before it. -/
theorem decodeEach_blocks (hmem : ∀ ptr, LinkedTable (mem ptr)) (blocks : List (Job P × List UInt8))
    (hblocks : ∀ b ∈ blocks, LinkedTable b.1.fields ∧ b.2.length < 2 ^ 32) (r t : List UInt8)
    (e : Option String) :
    ∃ e', decodeEach (pbDecodeDelimited mem) (blocks.map Prod.fst)
        (window ((blocks.flatMap fun b => lengthPrefixed b.2) ++ r) t e)
      = (blocks.map fun b => (pbDecode mem b.1.fields b.1.struct (window b.2 [] none)).1,
          window r t e') := by
  refine decodeEach_takes (fun b hb r t e => ?_) r t e
  obtain ⟨hlinked, hlen⟩ := hblocks b hb
  obtain ⟨u, q, answer, msg, hu, hrun⟩ := pbDecode_contained hmem hlinked b.1.struct b.2
  refine ⟨e.or msg, ?_⟩
  rw [hrun [] none]
  exact decodeDelimited_window hlen (hrun (r ++ t) e)

/-- A message that breaks off, in front of one that does not. -/
theorem decodeEach_blocks_cut :
    let mem : Unit → List (PbField Unit) := fun _ => []
    let job : Job Unit := ⟨[⟨1, .required, .uvarint, 4, none⟩], [.uint 5]⟩
    ∃ e, decodeEach (pbDecodeDelimited mem) [job, job]
        (window [0x01, 0x08, 0x02, 0x08, 0x07, 0x63] [] none)
      = ([(pbDecode mem job.fields job.struct (window [0x08] [] none)).1,
          (pbDecode mem job.fields job.struct (window [0x08, 0x07] [] none)).1],
        window [0x63] [] e) := by
  intro mem job
  have hmem : ∀ ptr, LinkedTable (mem ptr) := fun _ => List.forall_mem_nil _
  have hlinked : LinkedTable job.fields := by
    unfold LinkedTable
    decide
  have hbytes : ([(job, [0x08]), (job, [0x08, 0x07])] : List (Job Unit × List UInt8)).flatMap
      (fun b => lengthPrefixed b.2) ++ [0x63] = [0x01, 0x08, 0x02, 0x08, 0x07, 0x63] := by
    decide +kernel
  have hrun := decodeEach_blocks hmem [(job, [0x08]), (job, [0x08, 0x07])] (by simp [hlinked])
    [0x63] [] none
  rwa [hbytes] at hrun

/-! ## Messages come back -/

/-- A message, and a struct of its type to receive it in. -/
structure Transfer (P : Type) where
  fields : List (PbField P)
  src : List Slot
  dest : List Slot

/-- What is sent. -/
def Transfer.sent (j : Transfer P) : Job P := ⟨j.fields, j.src⟩

/-- Where it is received. -/
def Transfer.taken (j : Transfer P) : Job P := ⟨j.fields, j.dest⟩

/-- The message fits its table, and its strings end. -/
structure Transfer.Ready (mem : P → List (PbField P)) (j : Transfer P) : Prop where
  searchable : Searchable j.fields
  shapes : HaveShapes mem j.fields j.src
  flat : AllFlat j.src
  ends : AllEnd j.src
  sameType : SameType j.dest j.src

/-- What was sent on a buffer is received from it, when each message is read back. -/
theorem roundTrip_each {encode : List (PbField P) → List Slot → OStream → Bool × OStream}
    {decode : List (PbField P) → List Slot → IStream → (Bool × List Slot) × IStream}
    {bytes : Transfer P → List UInt8} {answer : Transfer P → Bool × List Slot}
    {js : List (Transfer P)} (hemits : ∀ j ∈ js, Emits (encode j.fields j.src) (bytes j))
    (hreads : ∀ j ∈ js, Reads (decode j.fields j.dest) (bytes j) (answer j)) {buf : List UInt8}
    {n : Nat} {o : OStream}
    (henc : encodeEach encode (js.map Transfer.sent) (pbOstreamFromBuffer buf n) = (true, o)) :
    ∃ t e, decodeEach decode (js.map Transfer.taken)
        (pbIstreamFromBuffer (o.before ++ o.state) o.bytesWritten)
      = (js.map answer, window [] t e) := by
  obtain ⟨hbytes, hlen⟩ := (encodeEach_emits hemits).buffer henc
  have htakes : ∀ j ∈ js, Takes (decode j.taken.fields j.taken.struct) (bytes j) (answer j) :=
    fun j hj => (hreads j hj).takes
  obtain ⟨e, hdec⟩ := decodeEach_takes htakes [] (buf.drop (js.flatMap bytes).length) none
  rw [List.append_nil] at hdec
  rw [hbytes, hlen]
  exact ⟨_, e, hdec⟩

theorem pbDecodeDelimited_reads (hmem : ∀ ptr, Searchable (mem ptr)) {j : Transfer P}
    (h : j.Ready mem) (hlen : (wire mem j.fields j.src).length < 2 ^ 32) :
    Reads (pbDecodeDelimited mem j.fields j.dest) (lengthPrefixed (wire mem j.fields j.src))
      (true, receivedMessage mem j.fields j.src) := fun r t e =>
  decodeDelimited_window hlen
    (pbDecode_wire_received hmem h.searchable h.shapes h.flat h.ends h.sameType (r ++ t) e)

/-- A table of one number. -/
theorem ready_number {v : UInt64} (hv : v.toNat < 256 ^ 4) :
    Transfer.Ready (fun _ : Unit => [])
      ⟨[⟨1, .required, .uvarint, 4, none⟩], [.uint v], [.uint 5]⟩ := by
  have hsh : HaveShapes (fun _ : Unit => [])
      [(⟨1, .required, .uvarint, 4, none⟩ : PbField Unit)] [.uint v] := by
    simpa [HaveShapes, HasShape, Slot.htype, validDataSize, PbField.InRange] using hv
  exact ⟨⟨List.nodup_singleton 1, by simp⟩, hsh, by simp [AllFlat, Slot.Flat],
    by simp [AllEnd, Slot.Ends], by simp [SameType, allZeroed, Slot.zeroed]⟩

/-- **Without the defaults, the message is merged into the struct**: its fields in any order, with
foreign fields between them. -/
theorem pbDecodeDelimitedNoinit_reads (hmem : ∀ ptr, Searchable (mem ptr))
    (hfields : Searchable fields) (hsh : HaveShapes mem fields slots) (hflat : AllFlat slots)
    (hends : AllEnd slots) (hdest : SameType dest slots) {w : List UInt8} (hlen : w.length < 2 ^ 32)
    (hw : SpellsMessage mem fields slots w) :
    Reads (pbDecodeDelimitedNoinit mem fields dest) (lengthPrefixed w)
      (true, mergedMessage mem fields dest slots) := fun r t e =>
  decodeDelimited_window hlen
    (pbDecodeNoinit_merges hmem hfields hsh hflat hends hdest hw (r ++ t) e)

/-- **What was sent with lengths in front comes back**, message by message. -/
theorem delimited_roundTrip (hmem : ∀ ptr, Searchable (mem ptr)) (js : List (Transfer P))
    (h : ∀ j ∈ js, j.Ready mem) (hlen : ∀ j ∈ js, (wire mem j.fields j.src).length < 2 ^ 32)
    {buf : List UInt8} {n : Nat} {o : OStream}
    (henc : encodeEach (pbEncodeDelimited mem) (js.map Transfer.sent) (pbOstreamFromBuffer buf n)
      = (true, o)) :
    ∃ t e, decodeEach (pbDecodeDelimited mem) (js.map Transfer.taken)
        (pbIstreamFromBuffer (o.before ++ o.state) o.bytesWritten)
      = (js.map fun j => (true, receivedMessage mem j.fields j.src), window [] t e) :=
  roundTrip_each
    (fun j hj => pbEncodeSubmessage_emits (pbEncode_emits (h j hj).shapes)
      ((hlen j hj).trans (by decide)))
    (fun j hj => pbDecodeDelimited_reads hmem (h j hj) (hlen j hj)) henc

/-- Two numbers, in a buffer that has more room. -/
theorem delimited_roundTrip_two :
    let mem : Unit → List (PbField Unit) := fun _ => []
    let fields : List (PbField Unit) := [⟨1, .required, .uvarint, 4, none⟩]
    let js : List (Transfer Unit) :=
      [⟨fields, [.uint 7], [.uint 5]⟩, ⟨fields, [.uint 300], [.uint 5]⟩]
    ∃ o, encodeEach (pbEncodeDelimited mem) (js.map Transfer.sent)
        (pbOstreamFromBuffer (List.replicate 9 0xFF) 9) = (true, o) ∧
      ∃ t e, decodeEach (pbDecodeDelimited mem) (js.map Transfer.taken)
          (pbIstreamFromBuffer (o.before ++ o.state) o.bytesWritten)
        = ([(true, [.uint 7]), (true, [.uint 300])], window [] t e) := by
  intro mem fields js
  have hmem : ∀ ptr, Searchable (mem ptr) := fun _ => ⟨List.nodup_nil, List.forall_mem_nil _⟩
  have hready : ∀ j ∈ js, j.Ready mem := by
    simp only [js, List.forall_mem_cons]
    exact ⟨ready_number (by decide), ready_number (by decide), List.forall_mem_nil _⟩
  have hlen : ∀ j ∈ js, (wire mem j.fields j.src).length < 2 ^ 32 := by
    simp only [js, fields, List.forall_mem_cons]
    exact ⟨by decide +kernel, by decide +kernel, List.forall_mem_nil _⟩
  have hok : (encodeEach (pbEncodeDelimited mem) (js.map Transfer.sent)
      (pbOstreamFromBuffer (List.replicate 9 0xFF) 9)).1 = true := by decide +kernel
  rcases henc : encodeEach (pbEncodeDelimited mem) (js.map Transfer.sent)
    (pbOstreamFromBuffer (List.replicate 9 0xFF) 9) with ⟨ok, o⟩
  rw [henc] at hok
  obtain rfl : ok = true := hok
  obtain ⟨t, e, hrun⟩ := delimited_roundTrip hmem js hready hlen henc
  refine ⟨o, rfl, t, e, hrun.trans ?_⟩
  simp [js, fields, receivedMessage, receivedData]

/-! ## A zero key behind -/

theorem reads_zero : Reads pbDecodeVarint32Eof [0] (.ok 0) := fun r t e => by
  rw [List.singleton_append, pbDecodeVarint32Eof_cons, if_pos (by decide)]
  rfl

/-- A message ends at its zero key: zeros inside of it do not end it, and what is behind the key is
not read. -/
theorem pbDecodeNullterminated_reads (hmem : ∀ ptr, Searchable (mem ptr))
    (hfields : Searchable fields) (hsh : HaveShapes mem fields slots) (hflat : AllFlat slots)
    (hends : AllEnd slots) (hdest : SameType dest slots) {w : List UInt8}
    (hw : SpellsMessage mem fields slots w) :
    Reads (pbDecodeNullterminated mem fields dest) (w ++ [0])
      (true, receivedMessage mem fields slots) := by
  intro r t e
  obtain ⟨read, hrecords, hrequired⟩ := SpellsMessage.areRecords hmem (w.length + 1)
    (Nat.lt_succ_self _) hfields hsh hflat hends (allZeroed_allZeroed slots) hw
  rw [mergedMessage_zeroed hsh] at hrecords
  have hend : EndsMessage ([0] ++ r) r := Or.inr ⟨[0], rfl, reads_zero⟩
  have hmessage := IsMessage.mk hrecords hrequired hend
  rw [← List.append_assoc] at hmessage
  rw [pbDecodeNullterminated, pbDecode_eq hsh hdest]
  exact (pbDecodeNoinit_iff (fun ptr => (hmem ptr).tags) hfields.tags).mpr ⟨r, hmessage, rfl⟩

theorem pbEncodeNullterminated_emits (hsh : HaveShapes mem fields slots) :
    Emits (pbEncodeNullterminated mem fields slots) (wire mem fields slots ++ [0]) :=
  (pbEncode_emits hsh).andThen (pbWrite_emits [0])

/-- **What was sent with zero keys behind comes back**, message by message. -/
theorem nullterminated_roundTrip (hmem : ∀ ptr, Searchable (mem ptr)) (js : List (Transfer P))
    (h : ∀ j ∈ js, j.Ready mem) {buf : List UInt8} {n : Nat} {o : OStream}
    (henc : encodeEach (pbEncodeNullterminated mem) (js.map Transfer.sent)
      (pbOstreamFromBuffer buf n) = (true, o)) :
    ∃ t e, decodeEach (pbDecodeNullterminated mem) (js.map Transfer.taken)
        (pbIstreamFromBuffer (o.before ++ o.state) o.bytesWritten)
      = (js.map fun j => (true, receivedMessage mem j.fields j.src), window [] t e) :=
  roundTrip_each (fun j hj => pbEncodeNullterminated_emits (h j hj).shapes)
    (fun j hj => pbDecodeNullterminated_reads hmem (h j hj).searchable (h j hj).shapes (h j hj).flat
      (h j hj).ends (h j hj).sameType (spellsMessage_wire (h j hj).shapes (h j hj).flat)) henc

/-- The same two numbers. -/
theorem nullterminated_roundTrip_two :
    let mem : Unit → List (PbField Unit) := fun _ => []
    let fields : List (PbField Unit) := [⟨1, .required, .uvarint, 4, none⟩]
    let js : List (Transfer Unit) :=
      [⟨fields, [.uint 7], [.uint 5]⟩, ⟨fields, [.uint 300], [.uint 5]⟩]
    ∃ o, encodeEach (pbEncodeNullterminated mem) (js.map Transfer.sent)
        (pbOstreamFromBuffer (List.replicate 9 0xFF) 9) = (true, o) ∧
      ∃ t e, decodeEach (pbDecodeNullterminated mem) (js.map Transfer.taken)
          (pbIstreamFromBuffer (o.before ++ o.state) o.bytesWritten)
        = ([(true, [.uint 7]), (true, [.uint 300])], window [] t e) := by
  intro mem fields js
  have hmem : ∀ ptr, Searchable (mem ptr) := fun _ => ⟨List.nodup_nil, List.forall_mem_nil _⟩
  have hready : ∀ j ∈ js, j.Ready mem := by
    simp only [js, List.forall_mem_cons]
    exact ⟨ready_number (by decide), ready_number (by decide), List.forall_mem_nil _⟩
  have hok : (encodeEach (pbEncodeNullterminated mem) (js.map Transfer.sent)
      (pbOstreamFromBuffer (List.replicate 9 0xFF) 9)).1 = true := by decide +kernel
  rcases henc : encodeEach (pbEncodeNullterminated mem) (js.map Transfer.sent)
    (pbOstreamFromBuffer (List.replicate 9 0xFF) 9) with ⟨ok, o⟩
  rw [henc] at hok
  obtain rfl : ok = true := hok
  obtain ⟨t, e, hrun⟩ := nullterminated_roundTrip hmem js hready henc
  refine ⟨o, rfl, t, e, hrun.trans ?_⟩
  simp [js, fields, receivedMessage, receivedData]

/-! ## The encoded size -/

/-- **`pb_get_encoded_size` is exact**: a message is encoded into every buffer of that size, into no
smaller one, and takes that many bytes. -/
theorem pbGetEncodedSize_exact (hsh : HaveShapes mem fields slots) :
    ∃ size, pbGetEncodedSize mem fields slots = some size ∧ ∀ (buf : List UInt8) (n : Nat),
      ((pbEncode mem fields slots (pbOstreamFromBuffer buf n)).1 = true ↔ size ≤ n) ∧
      ∀ o, pbEncode mem fields slots (pbOstreamFromBuffer buf n) = (true, o) →
        o.bytesWritten = size := by
  have hemits := pbEncode_emits hsh
  have hsizing : pbEncode mem fields slots sizing = (true, sizing.put (wire mem fields slots)) :=
    hemits.of_fits rfl (Or.inl rfl)
  refine ⟨(wire mem fields slots).length, ?_, fun buf n => ⟨?_, fun o ho => (hemits.buffer ho).2⟩⟩
  · rw [pbGetEncodedSize, hsizing]
    exact congrArg some (Nat.zero_add _)
  · have hfits : (pbOstreamFromBuffer buf n).Fits (wire mem fields slots).length ↔
        (wire mem fields slots).length ≤ n := by
      simp [Fits, pbOstreamFromBuffer]
    rcases hemits (pbOstreamFromBuffer buf n) rfl (Or.inr (Nat.zero_le _)) with
      ⟨hroom, hrun⟩ | ⟨hroom, w, -, hrun⟩
    · exact ⟨fun _ => hfits.mp hroom, fun _ => congrArg Prod.fst hrun⟩
    · refine ⟨fun h => absurd (h.symm.trans (congrArg Prod.fst hrun)) (by simp), fun h => ?_⟩
      exact absurd (hfits.mpr h) hroom

/-- A number of two bytes behind its key. -/
theorem pbGetEncodedSize_exact_number :
    let mem : Unit → List (PbField Unit) := fun _ => []
    let fields : List (PbField Unit) := [⟨1, .required, .uvarint, 4, none⟩]
    pbGetEncodedSize mem fields [.uint 300] = some 3 ∧ ∀ (buf : List UInt8) (n : Nat),
      (pbEncode mem fields [.uint 300] (pbOstreamFromBuffer buf n)).1 = true ↔ 3 ≤ n := by
  intro mem fields
  have hthree : pbGetEncodedSize mem fields [.uint 300] = some 3 := by decide +kernel
  obtain ⟨size, hsize, hexact⟩ :=
    @pbGetEncodedSize_exact _ mem fields [.uint 300] (@ready_number 300 (by decide)).shapes
  obtain rfl := Option.some.inj (hthree.symm.trans hsize)
  exact ⟨hthree, fun buf n => (hexact buf n).1⟩

end EmbeddedTestbench.Nanopb
