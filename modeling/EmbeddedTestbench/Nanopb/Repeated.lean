import EmbeddedTestbench.Nanopb.Scalars

/-!
# Repeated fields (`pb_encode.c`, `pb_decode.c`)

An array goes out packed, as one record with all items, where the type of its items allows that, and
else as one record for each item. Both forms are read, mixed and interrupted by other fields, and
each record adds its items behind those that came before. `repeatedLoop` is the loop of
`pb_decode_noinit` over a table whose one field is the array; `func` is the encoder or the decoder of
an item, as in the code.

Headlines:
* **`repeatedLoop_records`**: records of either form add up, and are accepted exactly when their items
  fit the array.
* **`repeatedLoop_inBounds`**: no bytes at all make the code write outside the array; a message that
  is rejected may leave a count that is one too large.
* **`encodeArray_emits`**: the size of a packed array is that of its items, also where the code takes
  it from their type.
* **`scalars_roundTrip`**: an array of numbers of any type comes back.
-/

namespace EmbeddedTestbench.Nanopb

open IStream OStream EmbeddedTestbench.Lib

variable {α : Type}

/-! ## Definitions -/

/-- What is read of the `pb_field_t` of an array. -/
structure ArrayField where
  tag : Nat
  /-- `PB_LTYPE(type) <= PB_LTYPE_LAST_PACKABLE`. -/
  packable : Bool
  /-- The size of an item of `PB_LTYPE_FIXED32` or `PB_LTYPE_FIXED64`. -/
  fixedSize : Option Nat
  /-- The wire type of `pb_encode_tag_for_field`. -/
  wireType : Nat

/-- An array in a struct, of `array_size` items, and its `_count`. Both are a `pb_size_t`, a
`uint16_t` in this build: a count within the array goes at most one beyond it, where the message is
rejected, and in an array of 65535 items it wraps there. -/
structure ArrayMember (α : Type) where
  items : List α
  size : Nat

/-- `for (i = 0; i < count; i++) if (!func(stream, field, p)) return false;` -/
def encodeItems (func : α → OStream → Bool × OStream) : List α → OStream → Bool × OStream
  | [] => fun s => (true, s)
  | x :: xs => andThenW (func x) (encodeItems func xs)

/-- The total size of a packed array. -/
def packedSize (field : ArrayField) (func : α → OStream → Bool × OStream) (items : List α) :
    Option Nat :=
  match field.fixedSize with
  | some n => some (n * items.length)
  | none =>
    match encodeItems func items sizing with
    | (false, _) => none
    | (true, s) => some s.bytesWritten

/-- The items of a packed array, behind their size. -/
def encodePacked (func : α → OStream → Bool × OStream) (items : List α) (size : Nat) (s : OStream) :
    Bool × OStream :=
  if s.callback = false then (true, { s with bytesWritten := s.bytesWritten + size })
  else encodeItems func items s

/-- `encode_array`, with the `array_size` items at `pData`. -/
def encodeArray (field : ArrayField) (func : α → OStream → Bool × OStream) (pData : List α)
    (count : Nat) (s : OStream) : Bool × OStream :=
  if count = 0 then (true, s)
  else if pData.length < count then (false, s.setError "array max size exceeded")
  else if field.packable then
    andThenW (pbEncodeTag wtString field.tag) (fun s =>
      match packedSize field func (pData.take count) with
      | none => (false, s)
      | some size =>
        andThenW (pbEncodeVarint (UInt64.ofNat size)) (encodePacked func (pData.take count) size) s) s
  else
    encodeItems (fun x => andThenW (pbEncodeTag field.wireType field.tag) (func x))
      (pData.take count) s

/-- The `while` over a packed array, from the item at `*size` on: the status, these items, and by how
much `*size` has grown. -/
def packedLoop (func : α → IStream → (Bool × α) × IStream) :
    List α → IStream → (Bool × List α × Nat) × IStream
  | [], sub => ((true, [], 0), sub)
  | item :: rest, sub =>
    if sub.bytesLeft = 0 then ((true, item :: rest, 0), sub)
    else
      match func item sub with
      | ((false, item), sub) => ((false, item :: rest, 0), sub)
      | ((true, item), sub) =>
        let ((status, rest, n), sub) := packedLoop func rest sub
        ((status, item :: rest, n + 1), sub)

/-- The `PB_HTYPE_REPEATED` of `decode_static_field`: the count grows also when there is no room for
the item. -/
def decodeRepeated (field : ArrayField) (func : α → IStream → (Bool × α) × IStream) (wireType : Nat)
    (arr : ArrayMember α) (s : IStream) : (Bool × ArrayMember α) × IStream :=
  if wireType = wtString ∧ field.packable = true then
    match pbMakeStringSubstream s with
    | (none, s) => ((false, arr), s)
    | (some sub, s) =>
      let ((status, rest, n), sub) := packedLoop func (arr.items.drop arr.size) sub
      let arr : ArrayMember α := ⟨arr.items.take arr.size ++ rest, arr.size + n⟩
      if sub.bytesLeft ≠ 0 then ((false, arr), s.setError "array overflow")
      else
        match pbCloseStringSubstream s sub with
        | (false, s) => ((false, arr), s)
        | (true, s) => ((status, arr), s)
  else
    match arr.items[arr.size]? with
    | none => ((false, { arr with size := arr.size + 1 }), s.setError "array overflow")
    | some item =>
      let ((status, item), s) := func item s
      ((status, ⟨arr.items.set arr.size item, arr.size + 1⟩), s)

/-- The `while` of `pb_decode_noinit`, over a table of this one field. -/
def repeatedLoop (field : ArrayField) (func : α → IStream → (Bool × α) × IStream) :
    Nat → ArrayMember α → IStream → (Bool × ArrayMember α) × IStream
  | 0, arr, s => ((false, arr), s)
  | n + 1, arr, s =>
    if s.bytesLeft = 0 then ((true, arr), s)
    else
      match pbDecodeTag s with
      | (.stop eof, s) => ((eof, arr), s)
      | (.field wireType tag, s) =>
        if tag = field.tag then
          match decodeRepeated field func wireType arr s with
          | ((false, arr), s) => ((false, arr), s)
          | ((true, arr), s) => repeatedLoop field func n arr s
        else
          match pbSkipField s wireType with
          | (false, s) => ((false, arr), s)
          | (true, s) => repeatedLoop field func n arr s

/-! ## What is never written -/

/-- The count is at most the number of items. -/
def ArrayMember.InBounds (arr : ArrayMember α) : Prop := arr.size ≤ arr.items.length

/-- After a step from `arr`: the array has its length; the count is in bounds on success, and at most
one too large. -/
def KeepsBounds (arr : ArrayMember α) (answer : Bool × ArrayMember α) : Prop :=
  answer.2.items.length = arr.items.length ∧ answer.2.size ≤ arr.items.length + 1 ∧
    (answer.1 = true → answer.2.InBounds)

variable {field : ArrayField} {func : α → IStream → (Bool × α) × IStream}

theorem packedLoop_length (func : α → IStream → (Bool × α) × IStream) :
    ∀ (rest : List α) (sub : IStream), (packedLoop func rest sub).1.2.1.length = rest.length ∧
      (packedLoop func rest sub).1.2.2 ≤ rest.length
  | [], _ => ⟨rfl, Nat.le_refl _⟩
  | item :: rest, sub => by
    rw [packedLoop]
    split_ifs
    · exact ⟨rfl, Nat.zero_le _⟩
    · rcases func item sub with ⟨⟨_ | _, item'⟩, sub'⟩
      · exact ⟨rfl, Nat.zero_le _⟩
      · obtain ⟨hlen, hn⟩ := packedLoop_length func rest sub'
        exact ⟨congrArg (· + 1) hlen, Nat.succ_le_succ hn⟩

/-- One record, whatever it is. -/
theorem decodeRepeated_keepsBounds (field : ArrayField)
    (func : α → IStream → (Bool × α) × IStream) {arr : ArrayMember α} (h : arr.InBounds)
    (wireType : Nat) (s : IStream) : KeepsBounds arr (decodeRepeated field func wireType arr s).1 := by
  unfold ArrayMember.InBounds at h
  have hself : KeepsBounds arr (false, arr) := ⟨rfl, Nat.le_succ_of_le h, by simp⟩
  rw [decodeRepeated]
  split_ifs with hpacked
  · rcases pbMakeStringSubstream s with ⟨_ | sub, s'⟩
    · exact hself
    · dsimp only
      obtain ⟨hlen, hn⟩ := packedLoop_length func (arr.items.drop arr.size) sub
      rcases hloop : packedLoop func (arr.items.drop arr.size) sub with ⟨⟨status, rest, n⟩, sub'⟩
      rw [hloop, List.length_drop] at hlen hn
      dsimp only at hlen hn ⊢
      have hitems : (arr.items.take arr.size ++ rest).length = arr.items.length := by
        rw [List.length_append, List.length_take, hlen]
        omega
      have hkeep : ∀ ok, KeepsBounds arr (ok, ⟨arr.items.take arr.size ++ rest, arr.size + n⟩) :=
        fun ok => ⟨hitems, by dsimp only; omega, fun _ => by
          unfold ArrayMember.InBounds
          dsimp only
          omega⟩
      split_ifs
      · exact hkeep false
      · rcases pbCloseStringSubstream s' sub' with ⟨_ | _, s''⟩
        · exact hkeep false
        · exact hkeep status
  · cases hitem : arr.items[arr.size]? with
    | none => exact ⟨rfl, Nat.succ_le_succ h, by simp⟩
    | some item =>
      have hlt := (List.getElem?_eq_some_iff.mp hitem).1
      refine ⟨List.length_set, Nat.succ_le_succ h, fun _ => ?_⟩
      unfold ArrayMember.InBounds
      rw [List.length_set]
      exact hlt

/-- **No bytes make the code write outside the array**, and what was accepted has a count in bounds. -/
theorem repeatedLoop_inBounds : ∀ (n : Nat) {arr : ArrayMember α}, arr.InBounds → ∀ s : IStream,
    KeepsBounds arr (repeatedLoop field func n arr s).1
  | 0, arr, h, s => ⟨rfl, Nat.le_succ_of_le h, by simp [repeatedLoop]⟩
  | n + 1, arr, h, s => by
    have hself : ∀ ok, KeepsBounds arr (ok, arr) := fun ok => ⟨rfl, Nat.le_succ_of_le h, fun _ => h⟩
    rw [repeatedLoop]
    split_ifs
    · exact hself true
    · rcases pbDecodeTag s with ⟨⟨wireType, tag⟩ | eof, s'⟩
      · dsimp only
        split_ifs
        · have hstep := decodeRepeated_keepsBounds field func h wireType s'
          rcases hrun : decodeRepeated field func wireType arr s' with ⟨⟨_ | _, arr'⟩, s''⟩ <;>
            rw [hrun] at hstep
          · exact hstep
          · obtain ⟨hlen, hle, hok⟩ := repeatedLoop_inBounds n (hstep.2.2 rfl) s''
            exact ⟨hlen.trans hstep.1, hstep.1 ▸ hle, hok⟩
        · rcases pbSkipField s' wireType with ⟨_ | _, s''⟩
          · exact hself false
          · exact repeatedLoop_inBounds n h s''
      · exact hself eof

/-- Two items for an array of one: the count is one too large. -/
theorem repeatedLoop_inBounds_overflow :
    let field : ArrayField := ⟨1, false, none, 0⟩
    let func : UInt8 → IStream → (Bool × UInt8) × IStream := fun y s =>
      match pbReadbyte s with
      | (none, s) => ((false, y), s)
      | (some b, s) => ((true, b), s)
    let arr : ArrayMember UInt8 := ⟨[9], 0⟩
    let answer := (repeatedLoop field func 5 arr (window [0x08, 0x07, 0x08, 0x06] [] none)).1
    KeepsBounds arr answer ∧ answer.1 = false ∧ answer.2.size = 2 := by
  intro field func arr answer
  exact ⟨repeatedLoop_inBounds 5 (Nat.zero_le _) _, by decide +kernel, by decide +kernel⟩

/-! ## Records of an array -/

/-- A record of a message with the array: items in either form, or another field. -/
inductive ArrayRecord (α : Type) where
  | packed (items : List α)
  | single (item : α)
  | foreign (wireType tag : Nat) (payload : List UInt8)

namespace ArrayRecord

/-- The items that come with it. -/
def items : ArrayRecord α → List α
  | .packed items => items
  | .single item => [item]
  | .foreign _ _ _ => []

/-- Its bytes. -/
def bytes (field : ArrayField) (itemBytes : α → List UInt8) : ArrayRecord α → List UInt8
  | .packed items =>
    Base128.encode (8 * field.tag + wtString) ++ lengthPrefixed (items.flatMap itemBytes)
  | .single item => Base128.encode (8 * field.tag + field.wireType) ++ itemBytes item
  | .foreign wireType tag payload => Base128.encode (8 * tag + wireType) ++ payload

/-- The array may have such a record. -/
def Valid (field : ArrayField) (itemBytes : α → List UInt8) : ArrayRecord α → Prop
  | .packed items => field.packable = true ∧ (items.flatMap itemBytes).length < 2 ^ 32
  | .single _ => ¬ (field.wireType = wtString ∧ field.packable = true)
  | .foreign wireType tag payload => (tag ≠ field.tag ∧ 0 < tag ∧ tag < 2 ^ 29 ∧ wireType < 8) ∧
      Reads (fun s => pbSkipField s wireType) payload true

end ArrayRecord

/-- The key of the array can be written. -/
structure ArrayField.InRange (field : ArrayField) : Prop where
  tag_pos : 0 < field.tag
  tag_lt : field.tag < 2 ^ 29
  wireType_lt : field.wireType < 8

/-- The array with `xs` behind the items in use. -/
def ArrayMember.push (arr : ArrayMember α) (xs : List α) : ArrayMember α :=
  ⟨arr.items.take arr.size ++ (xs ++ arr.items.drop (arr.size + xs.length)), arr.size + xs.length⟩

/-- `func` reads the item from its bytes, whatever was in its place. -/
def ReadsItem (func : α → IStream → (Bool × α) × IStream) (itemBytes : α → List UInt8) (x : α) :
    Prop :=
  itemBytes x ≠ [] ∧ ∀ y, Reads (func y) (itemBytes x) (true, x)

theorem push_nil (arr : ArrayMember α) : arr.push [] = arr := by
  simp [ArrayMember.push]

theorem push_inBounds {arr : ArrayMember α} {xs : List α}
    (h : arr.size + xs.length ≤ arr.items.length) :
    (arr.push xs).InBounds ∧ (arr.push xs).items.length = arr.items.length := by
  have hlen : (arr.push xs).items.length = arr.items.length := by
    simp only [ArrayMember.push, List.length_append, List.length_take, List.length_drop]
    omega
  refine ⟨?_, hlen⟩
  unfold ArrayMember.InBounds
  rw [hlen]
  exact h

theorem push_push {arr : ArrayMember α} (h : arr.InBounds) (xs ys : List α) :
    (arr.push xs).push ys = arr.push (xs ++ ys) := by
  unfold ArrayMember.InBounds at h
  have htake : (arr.items.take arr.size).length = arr.size := List.length_take_of_le h
  have hfirst : (arr.items.take arr.size ++ (xs ++ arr.items.drop (arr.size + xs.length))).take
      (arr.size + xs.length) = arr.items.take arr.size ++ xs := by
    rw [← List.append_assoc, List.take_left' (by rw [List.length_append, htake])]
  have hrest : (arr.items.take arr.size ++ (xs ++ arr.items.drop (arr.size + xs.length))).drop
      (arr.size + xs.length + ys.length)
        = arr.items.drop (arr.size + (xs ++ ys).length) := by
    rw [← List.append_assoc, ← List.drop_drop, List.drop_left' (by rw [List.length_append, htake]),
      List.drop_drop, List.length_append, Nat.add_assoc]
  unfold ArrayMember.push
  dsimp only
  rw [hfirst, hrest, List.length_append, Nat.add_assoc, List.append_assoc, List.append_assoc]

theorem pbDecodeTag_key {wireType tag : Nat} (hw : wireType < 8) (hpos : 0 < tag)
    (htag : tag < 2 ^ 29) :
    Reads pbDecodeTag (Base128.encode (8 * tag + wireType)) (.field wireType tag) := by
  have hval := Base128.value_encode (8 * tag + wireType)
  have := pbDecodeTag_reads (Base128.isVarint_encode (8 * tag + wireType)) (by omega) (by omega)
  obtain ⟨hmod, hdiv⟩ := key_parts hw tag
  rwa [hval, hmod, hdiv] at this

/-! ## Reading the records -/

variable {itemBytes : α → List UInt8}

/-- The loop reads items as long as there is room, and stands behind them. -/
theorem packedLoop_window : ∀ {rest xs : List α}, (∀ x ∈ xs, ReadsItem func itemBytes x) →
    ∀ (t : List UInt8) (e : Option String),
    packedLoop func rest (window (xs.flatMap itemBytes) t e)
      = ((true, xs.take rest.length ++ rest.drop xs.length, min xs.length rest.length),
          window ((xs.drop rest.length).flatMap itemBytes) t e)
  | [], xs, _, t, e => by
    simp [packedLoop]
  | item :: rest, [], _, t, e => by
    rw [packedLoop, List.flatMap_nil, window_bytesLeft, List.length_nil, if_pos rfl]
    simp
  | item :: rest, x :: xs, h, t, e => by
    obtain ⟨hne, hread⟩ := h x List.mem_cons_self
    have hleft : (window ((x :: xs).flatMap itemBytes) t e).bytesLeft ≠ 0 := by
      simp [hne]
    rw [packedLoop, if_neg hleft, List.flatMap_cons, hread item]
    dsimp only
    rw [packedLoop_window fun y hy => h y (List.mem_cons_of_mem x hy)]
    simp [Nat.succ_min_succ]

/-- A packed record, when its items fit. -/
theorem decodeRepeated_packed {arr : ArrayMember α} {xs : List α} (hpack : field.packable = true)
    (hlen : (xs.flatMap itemBytes).length < 2 ^ 32) (hxs : ∀ x ∈ xs, ReadsItem func itemBytes x)
    (hfit : arr.size + xs.length ≤ arr.items.length) :
    Reads (decodeRepeated field func wtString arr) (lengthPrefixed (xs.flatMap itemBytes))
      (true, arr.push xs) := by
  intro r t e
  have hsize : (UInt32.ofNat (xs.flatMap itemBytes).length).toNat = (xs.flatMap itemBytes).length := by
    rw [UInt32.toNat_ofNat', Nat.mod_eq_of_lt hlen]
  have hroom : xs.length ≤ (arr.items.drop arr.size).length := by
    rw [List.length_drop]
    omega
  have hloop := @packedLoop_window _ func itemBytes (arr.items.drop arr.size) xs hxs (r ++ t) e
  rw [List.take_of_length_le hroom, List.drop_eq_nil_of_le hroom, Nat.min_eq_left hroom,
    List.drop_drop, List.flatMap_nil] at hloop
  rw [decodeRepeated, if_pos ⟨rfl, hpack⟩, lengthPrefixed, List.append_assoc,
    makeSubstream_window (pbDecodeVarint32_encode hlen) hsize.symm]
  dsimp only
  rw [hloop]
  dsimp only
  rw [if_neg (by simp), closeSubstream_window]
  rfl

/-- A packed record with too many items. -/
theorem decodeRepeated_packed_overflow {arr : ArrayMember α} {xs : List α}
    (hpack : field.packable = true) (hlen : (xs.flatMap itemBytes).length < 2 ^ 32)
    (hxs : ∀ x ∈ xs, ReadsItem func itemBytes x) (hfull : arr.items.length < arr.size + xs.length)
    (harr : arr.InBounds) (r t : List UInt8) (e : Option String) :
    (decodeRepeated field func wtString arr
      (window (lengthPrefixed (xs.flatMap itemBytes) ++ r) t e)).1.1 = false := by
  unfold ArrayMember.InBounds at harr
  have hsize : (UInt32.ofNat (xs.flatMap itemBytes).length).toNat = (xs.flatMap itemBytes).length := by
    rw [UInt32.toNat_ofNat', Nat.mod_eq_of_lt hlen]
  have hroom : (arr.items.drop arr.size).length < xs.length := by
    rw [List.length_drop]
    omega
  have hloop := @packedLoop_window _ func itemBytes (arr.items.drop arr.size) xs hxs (r ++ t) e
  have hleft : (window ((xs.drop (arr.items.drop arr.size).length).flatMap itemBytes) (r ++ t)
      e).bytesLeft ≠ 0 := by
    have hpos := List.length_pos_of_ne_nil (hxs _ (List.getElem_mem hroom)).1
    rw [List.drop_eq_getElem_cons hroom, List.flatMap_cons, window_bytesLeft, List.length_append]
    omega
  rw [decodeRepeated, if_pos ⟨rfl, hpack⟩, lengthPrefixed, List.append_assoc,
    makeSubstream_window (pbDecodeVarint32_encode hlen) hsize.symm]
  dsimp only
  rw [hloop]
  dsimp only
  rw [if_pos hleft]

/-- A record of one item, when there is room. -/
theorem decodeRepeated_single {arr : ArrayMember α} {x : α}
    (hform : ¬ (field.wireType = wtString ∧ field.packable = true))
    (hx : ReadsItem func itemBytes x) (hfit : arr.size < arr.items.length) :
    Reads (decodeRepeated field func field.wireType arr) (itemBytes x) (true, arr.push [x]) := by
  intro r t e
  rw [decodeRepeated, if_neg hform, List.getElem?_eq_getElem hfit]
  dsimp only
  rw [hx.2 _ r t e]
  dsimp only
  rw [List.set_eq_take_append_cons_drop, if_pos hfit]
  rfl

theorem repeatedLoop_nil (n : Nat) (arr : ArrayMember α) (t : List UInt8) (e : Option String) :
    repeatedLoop field func (n + 1) arr (window [] t e) = ((true, arr), window [] t e) := rfl

/-- One turn of the loop: a record that fits is added, one that does not ends the run. -/
theorem repeatedLoop_record (hfield : field.InRange) {record : ArrayRecord α}
    (hvalid : record.Valid field itemBytes) (hitems : ∀ x ∈ record.items, ReadsItem func itemBytes x)
    {arr : ArrayMember α} (harr : arr.InBounds) (n : Nat) (w t : List UInt8) (e : Option String) :
    (arr.size + record.items.length ≤ arr.items.length →
      repeatedLoop field func (n + 1) arr (window (record.bytes field itemBytes ++ w) t e)
        = repeatedLoop field func n (arr.push record.items) (window w t e)) ∧
    (arr.items.length < arr.size + record.items.length →
      (repeatedLoop field func (n + 1) arr (window (record.bytes field itemBytes ++ w) t e)).1.1
        = false) := by
  have hwire : wtString < 8 := by decide
  have hleft : ∀ (k : Nat) (p : List UInt8),
      (window (Base128.encode k ++ (p ++ w)) t e).bytesLeft ≠ 0 := fun k p => by
    simp [(Base128.isVarint_encode k).ne_nil]
  cases record with
  | packed xs =>
    obtain ⟨hpack, hlen⟩ := hvalid
    have hkey := pbDecodeTag_key hwire hfield.tag_pos hfield.tag_lt
    rw [ArrayRecord.bytes, List.append_assoc, repeatedLoop, if_neg (hleft _ _), hkey]
    dsimp only
    rw [if_pos rfl]
    constructor
    · intro hfit
      rw [decodeRepeated_packed hpack hlen hitems hfit w t e]
      rfl
    · intro hfull
      have hfalse := decodeRepeated_packed_overflow hpack hlen hitems hfull harr w t e
      rcases hrun : decodeRepeated field func wtString arr
        (window (lengthPrefixed (xs.flatMap itemBytes) ++ w) t e) with ⟨⟨ok, arr'⟩, s⟩
      rw [hrun] at hfalse
      obtain rfl : ok = false := hfalse
      rfl
  | single x =>
    have hkey := pbDecodeTag_key hfield.wireType_lt hfield.tag_pos hfield.tag_lt
    rw [ArrayRecord.bytes, List.append_assoc, repeatedLoop, if_neg (hleft _ _), hkey]
    dsimp only
    rw [if_pos rfl]
    constructor
    · intro hfit
      rw [decodeRepeated_single hvalid (hitems x List.mem_cons_self) hfit w t e]
      rfl
    · intro hfull
      have hnone : arr.items[arr.size]? = none :=
        List.getElem?_eq_none (Nat.le_of_lt_succ hfull)
      rw [decodeRepeated, if_neg hvalid, hnone]
  | foreign wireType tag payload =>
    obtain ⟨⟨hne, hpos, htag, hw⟩, hskip⟩ := hvalid
    have hkey := pbDecodeTag_key hw hpos htag
    have hskip' : pbSkipField (window (payload ++ w) t e) wireType = (true, window w t e) :=
      hskip w t e
    rw [ArrayRecord.bytes, List.append_assoc, repeatedLoop, if_neg (hleft _ _), hkey]
    dsimp only
    rw [if_neg hne, hskip']
    refine ⟨fun _ => ?_, fun hfull => absurd hfull (Nat.not_lt.mpr harr)⟩
    rw [ArrayRecord.items, push_nil]

section Records

variable {recs : List (ArrayRecord α)} {arr : ArrayMember α} {n : Nat}

/-- Records whose items fit. -/
theorem repeatedLoop_fits (hfield : field.InRange)
    (hvalid : ∀ record ∈ recs, record.Valid field itemBytes)
    (hitems : ∀ record ∈ recs, ∀ x ∈ record.items, ReadsItem func itemBytes x)
    (harr : arr.InBounds) (hn : recs.length < n)
    (hfit : arr.size + (recs.flatMap ArrayRecord.items).length ≤ arr.items.length) (t : List UInt8)
    (e : Option String) :
    repeatedLoop field func n arr (window (recs.flatMap (ArrayRecord.bytes field itemBytes)) t e)
      = ((true, arr.push (recs.flatMap ArrayRecord.items)), window [] t e) := by
  induction recs generalizing arr n with
  | nil =>
    obtain ⟨n, rfl⟩ := Nat.exists_eq_add_one.mpr hn
    rw [List.flatMap_nil, List.flatMap_nil, push_nil, repeatedLoop_nil]
  | cons record recs ih =>
    obtain ⟨n, rfl⟩ := Nat.exists_eq_add_one.mpr (Nat.zero_lt_of_lt hn)
    obtain ⟨hrecord, hrecs⟩ := List.forall_mem_cons.mp hvalid
    obtain ⟨hitem, hrest⟩ := List.forall_mem_cons.mp hitems
    rw [List.flatMap_cons, List.length_append] at hfit
    have hone : arr.size + record.items.length ≤ arr.items.length := by omega
    obtain ⟨hin, hlen⟩ := push_inBounds hone
    have hsize : (arr.push record.items).size = arr.size + record.items.length := rfl
    rw [List.flatMap_cons, List.flatMap_cons,
      (repeatedLoop_record hfield hrecord hitem harr n _ t e).1 hone,
      ih hrecs hrest hin (Nat.lt_of_succ_lt_succ hn) (by omega), push_push harr]

/-- Records whose items do not fit: the loop stops at the first that has no room. -/
theorem repeatedLoop_overflow (hfield : field.InRange)
    (hvalid : ∀ record ∈ recs, record.Valid field itemBytes)
    (hitems : ∀ record ∈ recs, ∀ x ∈ record.items, ReadsItem func itemBytes x)
    (harr : arr.InBounds) (hn : recs.length < n)
    (hfull : arr.items.length < arr.size + (recs.flatMap ArrayRecord.items).length) (t : List UInt8)
    (e : Option String) :
    (repeatedLoop field func n arr
      (window (recs.flatMap (ArrayRecord.bytes field itemBytes)) t e)).1.1 = false := by
  induction recs generalizing arr n with
  | nil => exact absurd hfull (Nat.not_lt.mpr harr)
  | cons record recs ih =>
    obtain ⟨n, rfl⟩ := Nat.exists_eq_add_one.mpr (Nat.zero_lt_of_lt hn)
    obtain ⟨hrecord, hrecs⟩ := List.forall_mem_cons.mp hvalid
    obtain ⟨hitem, hrest⟩ := List.forall_mem_cons.mp hitems
    rw [List.flatMap_cons, List.length_append] at hfull
    have hturn := repeatedLoop_record hfield hrecord hitem harr n
      (recs.flatMap (ArrayRecord.bytes field itemBytes)) t e
    rw [List.flatMap_cons]
    by_cases hone : arr.size + record.items.length ≤ arr.items.length
    · obtain ⟨hin, hlen⟩ := push_inBounds hone
      have hsize : (arr.push record.items).size = arr.size + record.items.length := rfl
      rw [hturn.1 hone]
      exact ih hrecs hrest hin (Nat.lt_of_succ_lt_succ hn) (by omega)
    · exact hturn.2 (Nat.not_le.mp hone)

/-- **Records of either form add up**, with other fields between them. The message is accepted exactly
when its items fit the array, and they are behind those that were there then. -/
theorem repeatedLoop_records (hfield : field.InRange)
    (hvalid : ∀ record ∈ recs, record.Valid field itemBytes)
    (hitems : ∀ record ∈ recs, ∀ x ∈ record.items, ReadsItem func itemBytes x)
    (harr : arr.InBounds) (hn : recs.length < n) (t : List UInt8) (e : Option String) :
    let w := recs.flatMap (ArrayRecord.bytes field itemBytes)
    let xs := recs.flatMap ArrayRecord.items
    ((repeatedLoop field func n arr (window w t e)).1.1 = true ↔
      arr.size + xs.length ≤ arr.items.length) ∧
    (arr.size + xs.length ≤ arr.items.length →
      repeatedLoop field func n arr (window w t e) = ((true, arr.push xs), window [] t e)) := by
  intro w xs
  have hfits := fun h => repeatedLoop_fits hfield hvalid hitems harr hn h t e
  refine ⟨⟨fun hok => ?_, fun h => by rw [hfits h]⟩, hfits⟩
  by_contra hfull
  have hfalse := repeatedLoop_overflow hfield hvalid hitems harr hn (Nat.not_le.mp hfull) t e
  exact absurd (hfalse.symm.trans hok) Bool.false_ne_true

/-- A packed record and a single item, for an array of three and one of two. -/
theorem repeatedLoop_records_mixed :
    let field : ArrayField := ⟨1, true, none, 0⟩
    let func : UInt8 → IStream → (Bool × UInt8) × IStream := fun y s =>
      match pbReadbyte s with
      | (none, s) => ((false, y), s)
      | (some b, s) => ((true, b), s)
    repeatedLoop field func 3 ⟨[9, 9, 9], 0⟩ (window [0x0A, 0x02, 0x05, 0x06, 0x08, 0x07] [] none)
        = ((true, ⟨[5, 6, 7], 3⟩), window [] [] none) ∧
      (repeatedLoop field func 3 ⟨[9, 9], 0⟩
        (window [0x0A, 0x02, 0x05, 0x06, 0x08, 0x07] [] none)).1.1 ≠ true := by
  intro field func
  let recs : List (ArrayRecord UInt8) := [.packed [5, 6], .single 7]
  have hfield : field.InRange := ⟨by decide, by decide, by decide⟩
  have hvalid : ∀ record ∈ recs, record.Valid field fun b => [b] := by
    simp [recs, ArrayRecord.Valid, field, wtString]
  have hitems : ∀ record ∈ recs, ∀ x ∈ record.items, ReadsItem func (fun b => [b]) x :=
    fun _ _ x _ => ⟨List.cons_ne_nil x [], fun _ _ _ _ => rfl⟩
  have hbytes : recs.flatMap (ArrayRecord.bytes field fun b => [b])
      = [0x0A, 0x02, 0x05, 0x06, 0x08, 0x07] := by decide +kernel
  have hthree : (⟨[9, 9, 9], 0⟩ : ArrayMember UInt8).InBounds := Nat.zero_le _
  have htwo : (⟨[9, 9], 0⟩ : ArrayMember UInt8).InBounds := Nat.zero_le _
  have hrun := (repeatedLoop_records hfield hvalid hitems hthree (by decide : 2 < 3) [] none).2
  have hover := (repeatedLoop_records hfield hvalid hitems htwo (by decide : 2 < 3) [] none).1
  rw [hbytes] at hrun hover
  exact ⟨hrun (by decide), fun h => absurd (hover.mp h) (by decide)⟩

end Records

/-! ## Writing the array -/

variable {encode : α → OStream → Bool × OStream}

/-- The records that `encode_array` writes. -/
def arrayRecords (field : ArrayField) (xs : List α) : List (ArrayRecord α) :=
  if xs = [] then [] else if field.packable then [.packed xs] else xs.map .single

theorem encodeItems_emits : ∀ {xs : List α}, (∀ x ∈ xs, Emits (encode x) (itemBytes x)) →
    Emits (encodeItems encode xs) (xs.flatMap itemBytes)
  | [], _ => emits_nil
  | x :: xs, h => by
    rw [encodeItems, List.flatMap_cons]
    exact (h x List.mem_cons_self).andThen
      (encodeItems_emits fun y hy => h y (List.mem_cons_of_mem x hy))

/-- The size of a packed array is that of its items, also where it is taken from their type. -/
theorem packedSize_eq {xs : List α} (h : ∀ x ∈ xs, Emits (encode x) (itemBytes x))
    (hfixed : ∀ n, field.fixedSize = some n → ∀ x ∈ xs, (itemBytes x).length = n) :
    packedSize field encode xs = some (xs.flatMap itemBytes).length := by
  rw [packedSize]
  cases hsize : field.fixedSize with
  | some n =>
    have hall : xs.map (fun x => (itemBytes x).length) = List.replicate xs.length n :=
      List.eq_replicate_iff.mpr ⟨List.length_map _, fun k hk => by
        obtain ⟨x, hx, rfl⟩ := List.mem_map.mp hk
        exact hfixed n hsize x hx⟩
    rw [List.length_flatMap, hall, List.sum_replicate_nat, Nat.mul_comm]
  | none =>
    have hrun : encodeItems encode xs sizing = (true, sizing.put (xs.flatMap itemBytes)) :=
      (encodeItems_emits h).of_fits rfl (Or.inl rfl)
    dsimp only
    rw [hrun]
    exact congrArg some (Nat.zero_add _)

/-- A stream that only counts takes the size for the items. -/
theorem encodePacked_emits {xs : List α} (h : ∀ x ∈ xs, Emits (encode x) (itemBytes x)) :
    Emits (encodePacked encode xs (xs.flatMap itemBytes).length) (xs.flatMap itemBytes) := by
  intro s he h0
  cases hc : s.callback with
  | true =>
    have heq : encodePacked encode xs (xs.flatMap itemBytes).length s = encodeItems encode xs s := by
      rw [encodePacked, if_neg (by simp [hc])]
    rw [heq]
    exact encodeItems_emits h s he h0
  | false =>
    refine Or.inl ⟨Or.inl hc, ?_⟩
    rw [encodePacked, if_pos hc, OStream.put, if_neg (by simp [hc])]

/-- **`encode_array` writes the records of the items in use.** -/
theorem encodeArray_emits (hfield : field.InRange) {arr : ArrayMember α} (harr : arr.InBounds)
    (h : ∀ x ∈ arr.items.take arr.size, Emits (encode x) (itemBytes x))
    (hfixed : ∀ n, field.fixedSize = some n →
      ∀ x ∈ arr.items.take arr.size, (itemBytes x).length = n)
    (hlen : ((arr.items.take arr.size).flatMap itemBytes).length < 2 ^ 32) :
    Emits (encodeArray field encode arr.items arr.size)
      ((arrayRecords field (arr.items.take arr.size)).flatMap (ArrayRecord.bytes field itemBytes)) := by
  have hwire : wtString < 8 := by decide
  unfold ArrayMember.InBounds at harr
  by_cases hzero : arr.size = 0
  · have heq : encodeArray field encode arr.items arr.size = fun s => (true, s) := by
      funext s
      rw [encodeArray, if_pos hzero]
    rw [heq, hzero, List.take_zero, arrayRecords, if_pos rfl]
    exact emits_nil
  · have hne : arr.items.take arr.size ≠ [] := by
      rw [← List.length_pos_iff, List.length_take]
      omega
    rw [arrayRecords, if_neg hne]
    by_cases hpack : field.packable = true
    · have heq : encodeArray field encode arr.items arr.size
          = andThenW (pbEncodeTag wtString field.tag)
              (andThenW (pbEncodeVarint
                (UInt64.ofNat ((arr.items.take arr.size).flatMap itemBytes).length))
                (encodePacked encode (arr.items.take arr.size)
                  ((arr.items.take arr.size).flatMap itemBytes).length)) := by
        funext s
        rw [encodeArray, if_neg hzero, if_neg (Nat.not_lt.mpr harr), if_pos hpack,
          packedSize_eq h hfixed]
      rw [heq, if_pos hpack, List.flatMap_singleton, ArrayRecord.bytes, lengthPrefixed]
      exact (pbEncodeTag_emits hwire hfield.tag_lt).andThen
        ((pbEncodeVarint_emits_ofNat (hlen.trans (by decide))).andThen (encodePacked_emits h))
    · have heq : encodeArray field encode arr.items arr.size
          = encodeItems (fun x => andThenW (pbEncodeTag field.wireType field.tag) (encode x))
              (arr.items.take arr.size) := by
        funext s
        rw [encodeArray, if_neg hzero, if_neg (Nat.not_lt.mpr harr), if_neg hpack]
      rw [heq, if_neg hpack, List.flatMap_map]
      exact encodeItems_emits fun x hx =>
        (pbEncodeTag_emits hfield.wireType_lt hfield.tag_lt).andThen (h x hx)

/-! ## The array comes back -/

theorem flatMap_items_arrayRecords (field : ArrayField) (xs : List α) :
    (arrayRecords field xs).flatMap ArrayRecord.items = xs := by
  rw [arrayRecords]
  split_ifs with hnil
  · exact hnil.symm
  · exact List.flatMap_singleton _ _
  · rw [List.flatMap_map]
    exact List.flatMap_pure_eq_map _ _ |>.trans (List.map_id _)

/-- An array that is packed is one record, or none. -/
theorem mem_arrayRecords_packable (h : field.packable = true) {xs : List α}
    {record : ArrayRecord α} (hrecord : record ∈ arrayRecords field xs) : record = .packed xs := by
  rw [arrayRecords] at hrecord
  split_ifs at hrecord
  · exact absurd hrecord List.not_mem_nil
  · exact List.mem_singleton.mp hrecord

/-- A record takes a byte at least. -/
theorem length_le_length_bytes (field : ArrayField) (itemBytes : α → List UInt8) :
    ∀ recs : List (ArrayRecord α),
      recs.length ≤ (recs.flatMap (ArrayRecord.bytes field itemBytes)).length
  | [] => Nat.le_refl _
  | record :: recs => by
    have hpos : 0 < (record.bytes field itemBytes).length := by
      have hkey := fun k => List.length_pos_of_ne_nil (Base128.isVarint_encode k).ne_nil
      cases record <;> rw [ArrayRecord.bytes, List.length_append] <;>
        exact Nat.add_pos_left (hkey _) _
    have hrecs := length_le_length_bytes field itemBytes recs
    rw [List.flatMap_cons, List.length_append, List.length_cons]
    omega

/-! ## Numbers -/

variable {P : Type}

/-- An array of numbers. -/
def scalarArray (type : ScalarType) (field : PbField P) : ArrayField where
  tag := field.tag
  packable := true
  fixedSize := match type with
    | .fixed32 => some 4
    | .fixed64 => some 8
    | _ => none
  wireType := match type with
    | .fixed32 => wt32bit
    | .fixed64 => wt64bit
    | _ => wtVarint

theorem length_fixedBytes (n : Nat) (val : UInt64) : (fixedBytes n val).length = n := by
  rw [fixedBytes, List.length_map, List.length_range]

theorem length_encode_toNat_le (v : UInt64) : (Base128.encode v.toNat).length ≤ 10 :=
  Base128.encode_length_le 9 _ (v.toNat_lt.trans (by decide))

/-- A number takes one to ten bytes. -/
theorem length_scalarBytes {type : ScalarType} {field : PbField P} {value : Int}
    (h : type.Holds field value) :
    scalarBytes type value ≠ [] ∧ (scalarBytes type value).length ≤ 10 := by
  have hvarint : ∀ v : UInt64, Base128.encode v.toNat ≠ [] ∧ (Base128.encode v.toNat).length ≤ 10 :=
    fun v => ⟨(Base128.isVarint_encode _).ne_nil, length_encode_toNat_le v⟩
  have hfixed : ∀ n, 0 < n → n ≤ 10 →
      fixedBytes n (UInt64.ofInt value) ≠ [] ∧ (fixedBytes n (UInt64.ofInt value)).length ≤ 10 :=
    fun n hpos hle => by
      rw [← List.length_pos_iff, length_fixedBytes]
      exact ⟨hpos, hle⟩
  unfold scalarBytes
  unfold ScalarType.Holds at h
  cases type with
  | varint => exact hvarint _
  | uvarint => exact hvarint _
  | svarint =>
    dsimp only
    rw [← zigzagged_toNat (toSigned_of_le h.1 h.2).1]
    exact hvarint _
  | fixed32 => exact hfixed 4 (by decide) (by decide)
  | fixed64 => exact hfixed 8 (by decide) (by decide)

theorem length_flatMap_scalarBytes {type : ScalarType} {field : PbField P} : ∀ {xs : List Int},
    (∀ x ∈ xs, type.Holds field x) → (xs.flatMap (scalarBytes type)).length ≤ 10 * xs.length
  | [], _ => Nat.le_refl _
  | x :: xs, h => by
    have hx := (length_scalarBytes (h x List.mem_cons_self)).2
    have hxs := length_flatMap_scalarBytes fun y hy => h y (List.mem_cons_of_mem x hy)
    rw [List.flatMap_cons, List.length_append, List.length_cons]
    omega

/-- The items of a fixed type have the size that the code multiplies with. -/
theorem scalarArray_fixedSize {type : ScalarType} {field : PbField P} {n : Nat}
    (h : (scalarArray type field).fixedSize = some n) (value : Int) :
    (scalarBytes type value).length = n := by
  cases type with
  | fixed32 => exact (length_fixedBytes 4 _).trans (Option.some.inj h)
  | fixed64 => exact (length_fixedBytes 8 _).trans (Option.some.inj h)
  | _ => exact absurd h (by simp [scalarArray])

/-- **An array of numbers comes back**, of any type and any size of its items, into an array that has
room for them; what stood behind them there stays. -/
theorem scalars_roundTrip (type : ScalarType) (field : PbField P) (hpos : 0 < field.tag)
    (htag : field.tag < 2 ^ 29) (src dest : ArrayMember Int) (hsrc : src.InBounds)
    (hholds : ∀ x ∈ src.items.take src.size, type.Holds field x) (hsize : src.size < 2 ^ 16)
    (hroom : src.size ≤ dest.items.length) {buf : List UInt8} {n : Nat} {o : OStream}
    (henc : encodeArray (scalarArray type field) (encodeScalar type field) src.items src.size
      (pbOstreamFromBuffer buf n) = (true, o)) :
    (repeatedLoop (scalarArray type field) (decodeScalar type field) (o.bytesWritten + 1)
        ⟨dest.items, 0⟩ (pbIstreamFromBuffer (o.before ++ o.state) o.bytesWritten)).1
      = (true, ⟨src.items.take src.size ++ dest.items.drop src.size, src.size⟩) := by
  have hwire : (scalarArray type field).wireType < 8 := by
    cases type <;> simp [scalarArray, wtVarint, wt32bit, wt64bit]
  have hfield : (scalarArray type field).InRange := ⟨hpos, htag, hwire⟩
  have hcount : (src.items.take src.size).length = src.size := List.length_take_of_le hsrc
  have hlen : ((src.items.take src.size).flatMap (scalarBytes type)).length < 2 ^ 32 := by
    have := length_flatMap_scalarBytes hholds
    rw [hcount] at this
    omega
  have hemits := encodeArray_emits hfield hsrc (fun x hx => encodeScalar_emits (hholds x hx))
    (fun n hn x _ => scalarArray_fixedSize hn x) hlen
  obtain ⟨hbytes, hwritten⟩ := hemits.buffer henc
  have hvalid : ∀ record ∈ arrayRecords (scalarArray type field) (src.items.take src.size),
      record.Valid (scalarArray type field) (scalarBytes type) ∧
        ∀ x ∈ record.items, ReadsItem (decodeScalar type field) (scalarBytes type) x := by
    intro record hrecord
    obtain rfl := mem_arrayRecords_packable rfl hrecord
    exact ⟨⟨rfl, hlen⟩, fun x hx => ⟨(length_scalarBytes (hholds x hx)).1,
      fun y => decodeScalar_reads (hholds x hx) y⟩⟩
  have hfuel := Nat.lt_succ_of_le (length_le_length_bytes (scalarArray type field) (scalarBytes type)
    (arrayRecords (scalarArray type field) (src.items.take src.size)))
  have hempty : (⟨dest.items, 0⟩ : ArrayMember Int).InBounds := Nat.zero_le _
  have hitems := flatMap_items_arrayRecords (scalarArray type field) (src.items.take src.size)
  have hfit : (⟨dest.items, 0⟩ : ArrayMember Int).size + ((arrayRecords (scalarArray type field)
      (src.items.take src.size)).flatMap ArrayRecord.items).length ≤ dest.items.length := by
    rw [hitems, hcount, Nat.zero_add]
    exact hroom
  have hrun := fun t => repeatedLoop_fits hfield (fun r hr => (hvalid r hr).1)
    (fun r hr => (hvalid r hr).2) hempty hfuel hfit t none
  rw [hbytes, hwritten, pbIstreamFromBuffer_append, hrun, hitems]
  simp only [ArrayMember.push, List.take_zero, List.nil_append, hcount, Nat.zero_add]

/-- Two zigzag numbers, the first of them negative. -/
theorem scalars_roundTrip_zigzag :
    let field : PbField Unit := ⟨1, .required, .uvarint, 4, none⟩
    ∃ o, encodeArray (scalarArray .svarint field) (encodeScalar .svarint field) [-3, 2, 5] 2
        (pbOstreamFromBuffer (List.replicate 8 0xFF) 8) = (true, o) ∧
      (repeatedLoop (scalarArray .svarint field) (decodeScalar .svarint field) (o.bytesWritten + 1)
          ⟨[7, 7, 7, 7], 0⟩ (pbIstreamFromBuffer (o.before ++ o.state) o.bytesWritten)).1
        = (true, ⟨[-3, 2, 7, 7], 2⟩) := by
  intro field
  have hok : (encodeArray (scalarArray .svarint field) (encodeScalar .svarint field) [-3, 2, 5] 2
      (pbOstreamFromBuffer (List.replicate 8 0xFF) 8)).1 = true := by decide +kernel
  rcases henc : encodeArray (scalarArray .svarint field) (encodeScalar .svarint field) [-3, 2, 5] 2
    (pbOstreamFromBuffer (List.replicate 8 0xFF) 8) with ⟨ok, o⟩
  rw [henc] at hok
  obtain rfl : ok = true := hok
  have hholds : ∀ x ∈ ([-3, 2] : List Int), ScalarType.svarint.Holds field x := by
    simp only [ScalarType.Holds]
    decide
  exact ⟨o, rfl, scalars_roundTrip .svarint field (by decide) (by decide) ⟨[-3, 2, 5], 2⟩
    ⟨[7, 7, 7, 7], 0⟩ (by decide : 2 ≤ 3) hholds (by decide) (by decide) henc⟩

end EmbeddedTestbench.Nanopb
