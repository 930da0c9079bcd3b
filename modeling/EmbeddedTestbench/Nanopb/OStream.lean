import EmbeddedTestbench.Lib.Base128

/-!
# Output streams (`pb_ostream_t`) and the primitive encoders (`pb_encode.c`)

A stream either writes to a buffer or, with a `NULL` callback, only counts. The buffer is kept
split at the write pointer: `before` is what was passed over, `state` the memory from the pointer
on, which goes on past `max_size` (the substream of a submessage ends before its parent's buffer
does). `bytes_written` and `max_size` are `Nat`: no message of the program comes near `2 ^ 64`.

`Emits f bs` says all of what an encoder does: it appends `bs` when they fit, counts them on a
sizing stream, and otherwise fails with "stream full", having written no more than fits.

Headlines:
* **`Emits.andThen`**: encoders in a row append in a row, and fail exactly when the total does
  not fit.
* **`pbEncodeVarint_emits`**: `pb_encode_varint` writes the shortest varint of every 64-bit value.
* **`pbEncodeSubmessage_emits`**: the sizing pass and the writing pass of a submessage agree.
-/

namespace EmbeddedTestbench.Nanopb

open EmbeddedTestbench.Lib

/-- `pb_ostream_t`. -/
structure OStream where
  /-- `callback != NULL`: the stream writes, with `buf_write`. -/
  callback : Bool
  /-- The buffer up to the write pointer. -/
  before : List UInt8
  /-- The memory from the write pointer on. -/
  state : List UInt8
  maxSize : Nat
  bytesWritten : Nat
  errmsg : Option String
  deriving DecidableEq, Repr

namespace OStream

/-- `PB_SET_ERROR`: the first message stays. -/
def setError (s : OStream) (msg : String) : OStream :=
  { s with errmsg := s.errmsg.or (some msg) }

/-- `PB_OSTREAM_SIZING`. -/
def sizing : OStream := ⟨false, [], [], 0, 0, none⟩

/-- `count` more bytes do not overrun `max_size`. -/
def Fits (s : OStream) (count : Nat) : Prop :=
  s.callback = false ∨ s.bytesWritten + count ≤ s.maxSize

instance decFits (s : OStream) (count : Nat) : Decidable (s.Fits count) :=
  inferInstanceAs (Decidable (_ ∨ _))

/-- The writing substream of a submessage: it starts at the write pointer and takes `size` bytes. -/
def substream (s : OStream) (size : Nat) : OStream :=
  { s with maxSize := size, bytesWritten := 0, errmsg := none }

/-- The stream after its substream is done. -/
def takeBack (s sub : OStream) : OStream :=
  { sub with maxSize := s.maxSize, bytesWritten := s.bytesWritten + sub.bytesWritten }

/-- The stream after `bs` has been written or counted. -/
def put (s : OStream) (bs : List UInt8) : OStream :=
  if s.callback then
    { s with
      before := s.before ++ bs
      state := s.state.drop bs.length
      bytesWritten := s.bytesWritten + bs.length }
  else { s with bytesWritten := s.bytesWritten + bs.length }

end OStream

open OStream

/-- `pb_ostream_from_buffer`. -/
def pbOstreamFromBuffer (buf : List UInt8) (bufsize : Nat) : OStream :=
  ⟨true, [], buf, bufsize, 0, none⟩

/-- `buf_write`. -/
def bufWrite (s : OStream) (buf : List UInt8) : OStream :=
  { s with before := s.before ++ buf, state := s.state.drop buf.length }

/-- `pb_write`. -/
def pbWrite (buf : List UInt8) (s : OStream) : Bool × OStream :=
  if s.callback then
    if s.maxSize < s.bytesWritten + buf.length then (false, s.setError "stream full")
    else
      let s := bufWrite s buf
      (true, { s with bytesWritten := s.bytesWritten + buf.length })
  else (true, { s with bytesWritten := s.bytesWritten + buf.length })

/-- `if (!f(stream)) return false; return g(stream);` -/
def andThenW (f g : OStream → Bool × OStream) (s : OStream) : Bool × OStream :=
  match f s with
  | (false, s) => (false, s)
  | (true, s) => g s

/-- The `while (value)` of `pb_encode_varint`; the buffer has room for ten bytes. -/
def encodeVarintLoop : Nat → UInt64 → List UInt8
  | 0, _ => []
  | n + 1, value =>
    if value = 0 then []
    else ((value &&& 0x7F).toUInt8 ||| 0x80) :: encodeVarintLoop n (value >>> 7)

/-- `buffer[i - 1] &= 0x7F`. -/
def clearTop (buffer : List UInt8) : List UInt8 := buffer.modify (buffer.length - 1) (· &&& 0x7F)

/-- `pb_encode_varint`. -/
def pbEncodeVarint (value : UInt64) : OStream → Bool × OStream :=
  if value ≤ 0x7F then pbWrite [value.toUInt8]
  else pbWrite (clearTop (encodeVarintLoop 10 value))

/-- `pb_encode_tag`. -/
def pbEncodeTag (wireType fieldNumber : Nat) : OStream → Bool × OStream :=
  pbEncodeVarint ((UInt64.ofNat fieldNumber <<< 3) ||| UInt64.ofNat wireType)

/-- `pb_encode_string`: the bytes with their length in front. -/
def pbEncodeString (buffer : List UInt8) : OStream → Bool × OStream :=
  andThenW (pbEncodeVarint (UInt64.ofNat buffer.length)) (pbWrite buffer)

/-- `pb_encode_submessage`, where `encode` is `pb_encode` of the submessage. -/
def pbEncodeSubmessage (encode : OStream → Bool × OStream) (s : OStream) : Bool × OStream :=
  match encode sizing with
  | (false, sub) => (false, { s with errmsg := sub.errmsg })
  | (true, sub) =>
    let size := sub.bytesWritten
    match pbEncodeVarint (UInt64.ofNat size) s with
    | (false, s) => (false, s)
    | (true, s) =>
      if s.callback = false then (true, { s with bytesWritten := s.bytesWritten + size })
      else if s.maxSize < s.bytesWritten + size then (false, s.setError "stream full")
      else
        match encode (s.substream size) with
        | (status, sub) =>
          if sub.bytesWritten ≠ size then (false, (s.takeBack sub).setError "submsg size changed")
          else (status, s.takeBack sub)

/-! ## What an encoder emits -/

/-- `f` appends `bs` to every stream that has room for it; where there is none, `f` fails with
"stream full" and has written only what fits. -/
def Emits (f : OStream → Bool × OStream) (bs : List UInt8) : Prop :=
  ∀ s : OStream, s.errmsg = none → s.Fits 0 →
    (s.Fits bs.length ∧ f s = (true, s.put bs)) ∨
    (¬ s.Fits bs.length ∧ ∃ w, s.Fits w.length ∧ f s = (false, (s.put w).setError "stream full"))

@[simp] theorem put_callback (s : OStream) (bs : List UInt8) : (s.put bs).callback = s.callback := by
  unfold put
  split_ifs <;> rfl

@[simp] theorem put_errmsg (s : OStream) (bs : List UInt8) : (s.put bs).errmsg = s.errmsg := by
  unfold put
  split_ifs <;> rfl

@[simp] theorem put_maxSize (s : OStream) (bs : List UInt8) : (s.put bs).maxSize = s.maxSize := by
  unfold put
  split_ifs <;> rfl

@[simp] theorem put_bytesWritten (s : OStream) (bs : List UInt8) :
    (s.put bs).bytesWritten = s.bytesWritten + bs.length := by
  unfold put
  split_ifs <;> rfl

@[simp] theorem put_nil (s : OStream) : s.put [] = s := by
  unfold put
  split_ifs <;> simp

theorem put_put (s : OStream) (as bs : List UInt8) : (s.put as).put bs = s.put (as ++ bs) := by
  unfold put
  cases s.callback <;>
    simp [List.drop_drop, Nat.add_assoc]

theorem fits_put (s : OStream) (bs : List UInt8) (n : Nat) :
    (s.put bs).Fits n ↔ s.Fits (bs.length + n) := by
  unfold Fits
  rw [put_callback, put_bytesWritten, put_maxSize, Nat.add_assoc]

theorem Fits.le {s : OStream} {m n : Nat} (h : s.Fits n) (hmn : m ≤ n) : s.Fits m := by
  rcases h with h | h
  · exact Or.inl h
  · exact Or.inr (by omega)

/-- The outcome on a stream with room. -/
theorem Emits.of_fits {f : OStream → Bool × OStream} {bs : List UInt8} (h : Emits f bs)
    {s : OStream} (he : s.errmsg = none) (hfits : s.Fits bs.length) : f s = (true, s.put bs) := by
  rcases h s he (Fits.le hfits (Nat.zero_le _)) with ⟨-, hf⟩ | ⟨hn, -⟩
  · exact hf
  · exact absurd hfits hn

/-- What a successful encoder leaves in a buffer. -/
theorem Emits.buffer {f : OStream → Bool × OStream} {bs buf : List UInt8} {n : Nat} {o : OStream}
    (h : Emits f bs) (hf : f (pbOstreamFromBuffer buf n) = (true, o)) :
    o.before ++ o.state = bs ++ buf.drop bs.length ∧ o.bytesWritten = bs.length := by
  rcases h (pbOstreamFromBuffer buf n) rfl (Or.inr (Nat.zero_le _)) with ⟨-, hrun⟩ | ⟨-, w, -, hrun⟩
  · obtain rfl := (Prod.mk.inj (hf.symm.trans hrun)).2
    exact ⟨rfl, Nat.zero_add _⟩
  · exact absurd (Prod.mk.inj (hf.symm.trans hrun)).1 (by simp)

theorem pbWrite_emits (bs : List UInt8) : Emits (pbWrite bs) bs := by
  intro s _ h0
  by_cases hfits : s.Fits bs.length
  · refine Or.inl ⟨hfits, ?_⟩
    unfold pbWrite put
    cases hc : s.callback
    · simp
    · have hle : ¬ s.maxSize < s.bytesWritten + bs.length := by
        rcases hfits with h | h
        · rw [hc] at h
          exact absurd h (by simp)
        · omega
      simp [hc, hle, bufWrite]
  · refine Or.inr ⟨hfits, [], h0, ?_⟩
    obtain ⟨hc, hlt⟩ := not_or.mp hfits
    unfold pbWrite
    rw [if_pos (by simpa using hc), if_pos (by omega), put_nil]

theorem emits_nil : Emits (fun s => (true, s)) [] := fun s _ h0 =>
  Or.inl ⟨h0, by rw [put_nil]⟩

/-- **Encoders in a row.** -/
theorem Emits.andThen {f g : OStream → Bool × OStream} {as bs : List UInt8} (hf : Emits f as)
    (hg : Emits g bs) : Emits (andThenW f g) (as ++ bs) := by
  intro s he h0
  rw [List.length_append]
  unfold andThenW
  rcases hf s he h0 with ⟨hfits, hrun⟩ | ⟨hfits, w, hw, hrun⟩
  · rw [hrun]
    have h0' : (s.put as).Fits 0 := (fits_put s as 0).mpr hfits
    rcases hg (s.put as) (by rw [put_errmsg, he]) h0' with ⟨hfits', hrun'⟩ | ⟨hfits', w, hw, hrun'⟩
    · exact Or.inl ⟨(fits_put s as _).mp hfits', by simp only [hrun', put_put]⟩
    · refine Or.inr ⟨fun h => hfits' ((fits_put s as _).mpr h), as ++ w, ?_, ?_⟩
      · rw [List.length_append]
        exact (fits_put s as _).mp hw
      · simp only [hrun', put_put]
  · rw [hrun]
    exact Or.inr ⟨fun h => hfits (Fits.le h (Nat.le_add_right _ _)), w, hw, rfl⟩

/-! ## Varints -/

theorem toUInt8_and_or (value : UInt64) :
    ((value &&& 0x7F).toUInt8 ||| 0x80).toNat = value.toNat % 128 + 128 := by
  have h1 : ((value &&& 0x7F).toUInt8).toNat = value.toNat % 128 := by
    rw [UInt64.toNat_toUInt8, UInt64.toNat_and]
    have : value.toNat &&& (0x7F : UInt64).toNat = value.toNat % 128 :=
      Nat.and_two_pow_sub_one_eq_mod value.toNat 7
    rw [this]
    omega
  rw [UInt8.toNat_or, h1]
  have hor : 2 ^ 7 * 1 + value.toNat % 128 = 2 ^ 7 * 1 ||| value.toNat % 128 :=
    Nat.two_pow_add_eq_or_of_lt (by omega) 1
  calc value.toNat % 128 ||| (0x80 : UInt8).toNat
      = 2 ^ 7 * 1 ||| value.toNat % 128 := Nat.or_comm _ _
    _ = value.toNat % 128 + 128 := by omega

theorem toNat_shiftRight_7 (value : UInt64) : (value >>> 7).toNat = value.toNat / 128 := by
  rw [UInt64.toNat_shiftRight]
  exact Nat.shiftRight_eq_div_pow value.toNat 7

theorem clearTop_cons {b : UInt8} {bs : List UInt8} (h : bs ≠ []) :
    clearTop (b :: bs) = b :: clearTop bs := by
  obtain ⟨c, cs, rfl⟩ := List.exists_cons_of_ne_nil h
  rfl

theorem clearTop_encodeVarintLoop : ∀ (n : Nat) (value : UInt64), value ≠ 0 →
    value.toNat < 128 ^ n → clearTop (encodeVarintLoop n value) = Base128.encode value.toNat
  | 0, value, h, hlt => by
    have hzero : value.toNat = 0 := by
      rw [Nat.pow_zero] at hlt
      omega
    exact absurd (UInt64.toNat_inj.mp hzero) h
  | n + 1, value, h, hlt => by
    unfold encodeVarintLoop
    rw [if_neg h]
    by_cases hs : value.toNat < 128
    · have hz : value >>> 7 = 0 := by
        rw [← UInt64.toNat_inj, toNat_shiftRight_7]
        simp
        omega
      have hrest : encodeVarintLoop n (value >>> 7) = [] := by
        cases n with
        | zero => rfl
        | succ n => rw [hz, encodeVarintLoop, if_pos rfl]
      rw [hrest, Base128.encode_lt hs]
      simp only [clearTop, List.length_singleton, Nat.sub_self, List.modify_zero_cons, List.cons.injEq,
        and_true]
      have hbyte : value.toNat < 2 ^ 8 := by omega
      rw [← UInt8.toNat_inj, UInt8.toNat_and, toUInt8_and_or, UInt8.toNat_ofNat',
        Nat.mod_eq_of_lt hbyte]
      have : value.toNat % 128 + 128 &&& (0x7F : UInt8).toNat = (value.toNat % 128 + 128) % 128 :=
        Nat.and_two_pow_sub_one_eq_mod _ 7
      omega
    · have hnz : value >>> 7 ≠ 0 := fun h0 => by
        have := congrArg UInt64.toNat h0
        rw [toNat_shiftRight_7] at this
        simp at this
        omega
      have hlt' : (value >>> 7).toNat < 128 ^ n := by
        rw [toNat_shiftRight_7, Nat.div_lt_iff_lt_mul (by decide)]
        exact hlt
      have ih := clearTop_encodeVarintLoop n (value >>> 7) hnz hlt'
      have hne : encodeVarintLoop n (value >>> 7) ≠ [] := fun h0 => by
        rw [h0] at ih
        exact (Base128.isVarint_encode _).ne_nil ih.symm
      rw [clearTop_cons hne, ih, toNat_shiftRight_7, Base128.encode_ge (v := value.toNat) (by omega),
        List.cons.injEq, ← UInt8.toNat_inj, toUInt8_and_or, UInt8.toNat_ofNat']
      exact ⟨by omega, rfl⟩

/-- **`pb_encode_varint` writes the shortest varint.** -/
theorem pbEncodeVarint_emits (value : UInt64) :
    Emits (pbEncodeVarint value) (Base128.encode value.toNat) := by
  unfold pbEncodeVarint
  split_ifs with h
  · have hlt : value.toNat < 128 := by
      have : value.toNat ≤ 127 := UInt64.le_iff_toNat_le.mp h
      omega
    have hb : value.toUInt8 = UInt8.ofNat value.toNat := by
      rw [← UInt8.toNat_inj, UInt64.toNat_toUInt8, UInt8.toNat_ofNat']
    rw [Base128.encode_lt hlt, hb]
    exact pbWrite_emits _
  · have hnz : value ≠ 0 := by
      rintro rfl
      exact h (by decide)
    have hlt : value.toNat < 128 ^ 10 := value.toNat_lt.trans (by decide)
    rw [← clearTop_encodeVarintLoop 10 value hnz hlt]
    exact pbWrite_emits _

theorem pbEncodeVarint_emits_ofNat {n : Nat} (h : n < 2 ^ 64) :
    Emits (pbEncodeVarint (UInt64.ofNat n)) (Base128.encode n) := by
  have := pbEncodeVarint_emits (UInt64.ofNat n)
  rwa [UInt64.toNat_ofNat', Nat.mod_eq_of_lt h] at this

/-- The key of a field is `8 * tag + wireType`. -/
theorem pbEncodeTag_emits {wireType tag : Nat} (hw : wireType < 8) (ht : tag < 2 ^ 29) :
    Emits (pbEncodeTag wireType tag) (Base128.encode (8 * tag + wireType)) := by
  have hval : ((UInt64.ofNat tag <<< 3) ||| UInt64.ofNat wireType).toNat = 8 * tag + wireType := by
    have htag : tag % 2 ^ 64 = tag := Nat.mod_eq_of_lt (by omega)
    have hwire : wireType % 2 ^ 64 = wireType := Nat.mod_eq_of_lt (by omega)
    rw [UInt64.toNat_or, UInt64.toNat_shiftLeft, UInt64.toNat_ofNat', UInt64.toNat_ofNat', htag,
      hwire]
    have h3 : tag <<< ((3 : UInt64).toNat % 64) = 2 ^ 3 * tag := by
      rw [Nat.shiftLeft_eq, Nat.mul_comm]
      rfl
    rw [h3, Nat.mod_eq_of_lt (by omega), ← Nat.two_pow_add_eq_or_of_lt (by omega)]
  have := pbEncodeVarint_emits ((UInt64.ofNat tag <<< 3) ||| UInt64.ofNat wireType)
  rwa [hval] at this

theorem pbEncodeString_emits {bs : List UInt8} (h : bs.length < 2 ^ 64) :
    Emits (pbEncodeString bs) (Base128.encode bs.length ++ bs) :=
  (pbEncodeVarint_emits_ofNat h).andThen (pbWrite_emits bs)

/-- **A submessage is its encoding with the length in front**: the sizing pass counts what the
writing pass writes. -/
theorem pbEncodeSubmessage_emits {encode : OStream → Bool × OStream} {bs : List UInt8}
    (h : Emits encode bs) (hlen : bs.length < 2 ^ 64) :
    Emits (pbEncodeSubmessage encode) (Base128.encode bs.length ++ bs) := by
  intro s he h0
  have hsize : encode sizing = (true, sizing.put bs) := h.of_fits rfl (Or.inl rfl)
  have hstart : sizing.bytesWritten = 0 := rfl
  unfold pbEncodeSubmessage
  simp only [hsize, put_bytesWritten, hstart, Nat.zero_add, List.length_append]
  rcases pbEncodeVarint_emits_ofNat hlen s he h0 with ⟨hfits, hrun⟩ | ⟨hfits, w, hw, hrun⟩
  · simp only [hrun, put_callback, put_maxSize, put_bytesWritten]
    cases hc : s.callback
    · refine Or.inl ⟨Or.inl hc, ?_⟩
      simp [put, hc, Nat.add_assoc]
    · by_cases hle : s.bytesWritten + (Base128.encode bs.length).length + bs.length ≤ s.maxSize
      · refine Or.inl ⟨Or.inr (by omega), ?_⟩
        have hsub := h.of_fits (s := (s.put (Base128.encode bs.length)).substream bs.length) rfl
          (Or.inr (by simp [substream]))
        rw [if_neg (by simp), if_neg (by omega), hsub]
        simp [substream, takeBack, put, hc, he, Nat.add_assoc]
      · refine Or.inr ⟨fun hf => ?_, Base128.encode bs.length, hfits, ?_⟩
        · rcases hf with hf | hf
          · rw [hc] at hf
            exact absurd hf (by simp)
          · omega
        · rw [if_neg (by simp), if_pos (Nat.not_le.mp hle)]
  · simp only [hrun]
    exact Or.inr ⟨fun hf => hfits (Fits.le hf (Nat.le_add_right _ _)), w, hw, rfl⟩

end EmbeddedTestbench.Nanopb
