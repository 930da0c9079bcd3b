import EmbeddedTestbench.Nanopb.Decode

/-!
# The decoder stays inside its window (`pb_decode.c`)

Every field decoder, and the loop over the fields, reads a prefix of its window, and what it
answers depends on the window alone. This holds on every error path, also where a submessage has
split the bytes left between its stream and its parent's: closing the substream puts the parent
right behind the submessage.

Headlines:
* `Contained.substream`: a reader that works on a substream stays inside its window.
* **`decodeLoop_contained`**, **`pbDecode_contained`**: decoding over any table whose submessages
  have tables.
* **`decodeLoop_fuel`**: more fuel than bytes changes nothing.
-/

namespace EmbeddedTestbench.Nanopb

open IStream

variable {P : Type}

/-- Every submessage of a table has a table of its own. -/
def LinkedTable (fields : List (PbField P)) : Prop :=
  ∀ f ∈ fields, f.ltype = .submessage → f.ptr.isSome = true

/-! ## Substreams -/

/-- A length prefix is rejected, or it cuts the window in two. -/
theorem makeSubstream_cases (w : List UInt8) :
    (∃ u r msg, w = u ++ r ∧ ∀ (t : List UInt8) (e : Option String),
      pbMakeStringSubstream (window w t e) = (none, window r t (e.or msg))) ∨
    ∃ u p r, w = u ++ (p ++ r) ∧ ∀ (t : List UInt8) (e : Option String),
      pbMakeStringSubstream (window w t e)
        = (some (window p (r ++ t) e), ⟨p ++ (r ++ t), r.length, e⟩) := by
  obtain ⟨u, x, a, rfl, ⟨ha, hr⟩ | ⟨ha, msg, hf⟩⟩ := pbDecodeVarint32_prefixReader w
  · obtain ⟨size, rfl⟩ := Option.isSome_iff_exists.mp ha
    by_cases hshort : x.length < size.toNat
    · exact Or.inl ⟨u, x, some "parent stream too short", rfl, makeSubstream_short hr hshort⟩
    · have hlen : (x.take size.toNat).length = size.toNat := List.length_take_of_le (by omega)
      have hx : x.take size.toNat ++ x.drop size.toNat = x := List.take_append_drop _ _
      have hsub := makeSubstream_window hr hlen (x.drop size.toNat)
      rw [hx] at hsub
      exact Or.inr ⟨u, x.take size.toNat, x.drop size.toNat, by rw [hx], hsub⟩
  · obtain rfl := Option.not_isSome_iff_eq_none.mp ha
    refine Or.inl ⟨u, x, msg, rfl, fun t e => ?_⟩
    rw [pbMakeStringSubstream, hf t e]

/-- What is read of a substream does not matter once it is closed. -/
theorem Contained.close {α : Type} {f : IStream → α × IStream} (hf : Contained f)
    (p : List UInt8) :
    ∃ a msg, ∀ (x r t : List UInt8) (e : Option String), (f (window p (r ++ t) e)).1 = a ∧
      pbCloseStringSubstream ⟨x, r.length, e⟩ (f (window p (r ++ t) e)).2
        = (true, window r t (e.or msg)) := by
  obtain ⟨u, q, a, msg, rfl, hrun⟩ := hf p
  refine ⟨a, msg, fun x r t e => ?_⟩
  rw [hrun (r ++ t) e]
  exact ⟨rfl, closeSubstream_window x q r t e (e.or msg)⟩

/-- A reader that runs `f` on a substream, and closes it wherever `f` stopped. -/
theorem Contained.substream {α β : Type} {f : IStream → α × IStream} {g : IStream → β × IStream}
    (hf : Contained f) (b : β) (k : α → β)
    (hnone : ∀ {s s'}, pbMakeStringSubstream s = (none, s') → g s = (b, s'))
    (hsome : ∀ {s sub parent parent'}, pbMakeStringSubstream s = (some sub, parent) →
      pbCloseStringSubstream parent (f sub).2 = (true, parent') → g s = (k (f sub).1, parent')) :
    Contained g := by
  intro w
  rcases makeSubstream_cases w with ⟨u, r, msg, rfl, hfail⟩ | ⟨u, p, r, rfl, hmake⟩
  · exact ⟨u, r, b, msg, rfl, fun t e => hnone (hfail t e)⟩
  · obtain ⟨a, msg, hclose⟩ := hf.close p
    refine ⟨u ++ p, r, k a, msg, (List.append_assoc _ _ _).symm, fun t e => ?_⟩
    obtain ⟨hanswer, hparent⟩ := hclose (p ++ (r ++ t)) r t e
    rw [hsome (hmake t e) hparent, hanswer]

/-! ## Field decoders -/

section Field

variable (field : PbField P) (dest : Slot)

theorem pbDecUvarint_contained : Contained (pbDecUvarint field dest) := by
  refine pbDecodeVarint_prefixReader.contained.step fun value => ?_
  cases value with
  | none => exact ⟨_, contained_pure (false, dest), fun s s' h => by rw [pbDecUvarint, h]⟩
  | some value =>
    refine ⟨_, ?_, fun s s' h => by rw [pbDecUvarint, h]⟩
    dsimp only
    split_ifs
    · exact contained_setError _ _
    · exact contained_pure _
    · exact contained_setError _ _

theorem pbDecString_contained : Contained (pbDecString field dest) := by
  refine pbDecodeVarint32_prefixReader.contained.step fun size => ?_
  cases size with
  | none => exact ⟨_, contained_pure (false, dest), fun s s' h => by rw [pbDecString, h]⟩
  | some size =>
    refine ⟨_, ?_, fun s s' h => by rw [pbDecString, h]⟩
    dsimp only
    split_ifs
    · exact contained_setError _ _
    · exact contained_setError _ _
    · refine (pbRead_prefixReader size.toNat).contained.step fun buf => ?_
      cases buf with
      | none => exact ⟨_, contained_pure _, fun s s' h => by rw [h]⟩
      | some buf => exact ⟨_, contained_pure _, fun s s' h => by rw [h]⟩

/-- A submessage leaves the stream right behind itself, wherever its decoder stopped. -/
theorem pbDecSubmessage_contained (hptr : field.ptr.isSome = true)
    {decode : P → List Slot → IStream → (Bool × List Slot) × IStream}
    (hdecode : ∀ ptr ms, Contained (decode ptr ms)) :
    Contained (pbDecSubmessage field decode dest) := by
  obtain ⟨ptr, hptr⟩ := Option.isSome_iff_exists.mp hptr
  refine (hdecode ptr dest.members).substream (false, dest) (fun a => (a.1, .struct a.2)) ?_ ?_
  · intro s s' hmake
    rw [pbDecSubmessage, hmake]
  · intro s sub parent parent' hmake hclose
    rw [pbDecSubmessage, hmake]
    simp only [hptr, hclose]

variable {field} {decode : P → List Slot → IStream → (Bool × List Slot) × IStream}
  (hdecode : ∀ ptr ms, Contained (decode ptr ms))
  (hptr : field.ltype = .submessage → field.ptr.isSome = true)
include hdecode hptr

theorem decodeData_contained : Contained (decodeData field decode dest) := by
  unfold decodeData
  cases hl : field.ltype with
  | uvarint => exact pbDecUvarint_contained field dest
  | string => exact pbDecString_contained field dest
  | submessage => exact pbDecSubmessage_contained field dest (hptr hl) hdecode

theorem decodeStaticField_contained : Contained (decodeStaticField field decode dest) := by
  have hplain := fun dest => decodeData_contained dest hdecode hptr
  unfold decodeStaticField
  split
  · exact (hplain _).step fun a => ⟨_, contained_pure _, fun s s' h => by rw [h]⟩
  · exact hplain _

end Field

/-- The terminator is read as a number, and never accepted. -/
theorem decodeTerminator_contained (dest : List Slot) : Contained (decodeTerminator dest) :=
  pbDecodeVarint_prefixReader.contained.step fun value => by
    cases value with
    | none => exact ⟨_, contained_pure (false, dest), fun s s' h => by rw [decodeTerminator, h]⟩
    | some _ =>
      exact ⟨_, contained_setError (false, dest) "invalid data_size",
        fun s s' h => by rw [decodeTerminator, h]⟩

theorem decodeField_contained {fields : List (PbField P)} (hfields : LinkedTable fields)
    {decode : P → List Slot → IStream → (Bool × List Slot) × IStream}
    (hdecode : ∀ ptr ms, Contained (decode ptr ms)) (iter : PbFieldIter) (dest : List Slot) :
    Contained (decodeField fields iter decode dest) := by
  unfold decodeField
  cases hfield : fields[iter.pos]? with
  | none => exact decodeTerminator_contained dest
  | some field =>
    cases dest[iter.pos]? with
    | none => exact contained_pure _
    | some slot =>
      have hmem := hfields field (List.mem_of_getElem? hfield)
      dsimp only
      exact (decodeStaticField_contained slot hdecode hmem).step fun a =>
        ⟨_, contained_pure (a.1, dest.set iter.pos a.2), fun s s' h => by rw [h]⟩

/-! ## The loop -/

theorem checkRequired_contained (fields : List (PbField P)) (iter : PbFieldIter) (seen : List Nat)
    (dest : List Slot) : Contained (checkRequired fields iter seen dest) := by
  unfold checkRequired
  split_ifs
  · exact contained_pure _
  · exact contained_setError _ _

/-- **The loop stays inside its window**, with the loops of the submessages in it. -/
theorem decodeLoop_contained {mem : P → List (PbField P)} (hmem : ∀ p, LinkedTable (mem p)) :
    ∀ (n : Nat) {fields : List (PbField P)}, LinkedTable fields →
      ∀ (iter : PbFieldIter) (seen : List Nat) (dest : List Slot),
        Contained (decodeLoop mem n fields iter seen dest)
  | 0, _, _, _, _, dest => contained_pure (false, dest)
  | n + 1, fields, hfields, iter, seen, dest => by
    refine (checkRequired_contained fields iter seen dest).ite_nil ?_
    refine pbDecodeTag_prefixReader.contained.step fun key => ?_
    rcases key with ⟨wireType, tag⟩ | (_ | _)
    rotate_left
    · exact ⟨_, contained_pure (false, dest), fun s s' h => by rw [h]⟩
    · exact ⟨_, checkRequired_contained fields iter seen dest, fun s s' h => by rw [h]⟩
    · refine ⟨_, ?_, fun s s' h => by rw [h]⟩
      dsimp only
      rcases pbFieldIterFind fields tag iter with ⟨_ | _, iter'⟩ <;> dsimp only
      · refine (pbSkipField_prefixReader wireType).contained.step fun ok => ?_
        cases ok with
        | false => exact ⟨_, contained_pure (false, dest), fun s s' h => by rw [h]⟩
        | true =>
          exact ⟨_, decodeLoop_contained hmem n hfields iter' seen dest, fun s s' h => by rw [h]⟩
      · refine (decodeField_contained hfields (fun ptr ms =>
          decodeLoop_contained hmem n (hmem ptr) pbFieldIterBegin noneSeen ms) iter' dest).step
          fun a => ?_
        rcases a with ⟨_ | _, dest'⟩
        · exact ⟨_, contained_pure (false, dest'), fun s s' h => by rw [h]⟩
        · exact ⟨_, decodeLoop_contained hmem n hfields iter' (markSeen fields iter' seen) dest',
            fun s s' h => by rw [h]⟩

/-- **`pb_decode` stays inside its window.** -/
theorem pbDecode_contained {mem : P → List (PbField P)} (hmem : ∀ p, LinkedTable (mem p))
    {fields : List (PbField P)} (hfields : LinkedTable fields) (dest : List Slot) :
    Contained (pbDecode mem fields dest) := fun w =>
  decodeLoop_contained hmem (w.length + 1) hfields pbFieldIterBegin noneSeen
    (pbMessageSetToDefaults mem fields dest) w

/-! ## Fuel -/

section Congr

variable {decode decode' : P → List Slot → IStream → (Bool × List Slot) × IStream}
  {x : List UInt8}
  (h : ∀ ptr ms (p t : List UInt8) (e : Option String), p.length ≤ x.length →
    decode ptr ms (window p t e) = decode' ptr ms (window p t e))
include h

/-- A submessage is no longer than the window it is in. -/
theorem pbDecSubmessage_congr (field : PbField P) (dest : Slot) (t : List UInt8)
    (e : Option String) :
    pbDecSubmessage field decode dest (window x t e)
      = pbDecSubmessage field decode' dest (window x t e) := by
  rcases makeSubstream_cases x with ⟨u, r, msg, rfl, hfail⟩ | ⟨u, p, r, rfl, hmake⟩
  · rw [pbDecSubmessage, pbDecSubmessage, hfail t e]
  · rw [pbDecSubmessage, pbDecSubmessage, hmake t e]
    cases field.ptr with
    | none => rfl
    | some ptr =>
      have hlen : p.length ≤ (u ++ (p ++ r)).length := by
        simp only [List.length_append]
        omega
      simp only [h ptr dest.members p (r ++ t) e hlen]

theorem decodeData_congr (field : PbField P) (dest : Slot) (t : List UInt8) (e : Option String) :
    decodeData field decode dest (window x t e) = decodeData field decode' dest (window x t e) := by
  unfold decodeData
  cases field.ltype with
  | uvarint => rfl
  | string => rfl
  | submessage => exact pbDecSubmessage_congr h field dest t e

theorem decodeField_congr (fields : List (PbField P)) (iter : PbFieldIter) (dest : List Slot)
    (t : List UInt8) (e : Option String) :
    decodeField fields iter decode dest (window x t e)
      = decodeField fields iter decode' dest (window x t e) := by
  have hdata := fun field dest => decodeData_congr h field dest t e
  unfold decodeField
  cases fields[iter.pos]? with
  | none => rfl
  | some field =>
    cases dest[iter.pos]? with
    | none => rfl
    | some slot =>
      have hstatic : decodeStaticField field decode slot (window x t e)
          = decodeStaticField field decode' slot (window x t e) := by
        unfold decodeStaticField
        split
        · rw [hdata]
        · exact hdata _ _
      simp only [hstatic]

end Congr

/-- **More fuel than bytes changes nothing**: a turn without fuel never happens. -/
theorem decodeLoop_fuel {mem : P → List (PbField P)} (hmem : ∀ p, LinkedTable (mem p)) :
    ∀ (n m : Nat) {fields : List (PbField P)}, LinkedTable fields →
      ∀ (iter : PbFieldIter) (seen : List Nat) (dest : List Slot) (w t : List UInt8)
        (e : Option String), w.length < n → w.length < m →
        decodeLoop mem n fields iter seen dest (window w t e)
          = decodeLoop mem m fields iter seen dest (window w t e)
  | 0, _, _, _, _, _, _, _, _, _, h, _ => absurd h (Nat.not_lt_zero _)
  | _, 0, _, _, _, _, _, _, _, _, _, h => absurd h (Nat.not_lt_zero _)
  | n + 1, m + 1, fields, hfields, iter, seen, dest, w, t, e, hn, hm => by
    rw [decodeLoop, decodeLoop]
    split_ifs
    · rfl
    · cases htag : pbDecodeTag (window w t e) with
      | mk key s =>
        rcases key with ⟨wireType, tag⟩ | (_ | _)
        rotate_left
        · rfl
        · rfl
        · obtain ⟨k, x, rfl, rfl, hpos⟩ := pbDecodeTag_consumes htag
          rw [List.length_append] at hn hm
          dsimp only
          rcases pbFieldIterFind fields tag iter with ⟨_ | _, iter'⟩ <;> dsimp only
          · obtain ⟨u, r, ok, msg, rfl, hskip⟩ :=
              (pbSkipField_prefixReader wireType).contained x
            rw [List.length_append] at hn hm
            simp only [hskip t e]
            cases ok with
            | false => rfl
            | true =>
              exact decodeLoop_fuel hmem n m hfields iter' seen dest r t _ (by omega) (by omega)
          · -- the loops of the submessages have the fuel of this turn
            have hnested := fun ptr ms (p t : List UInt8) (e : Option String)
                (hp : p.length ≤ x.length) =>
              decodeLoop_fuel hmem n m (hmem ptr) pbFieldIterBegin noneSeen ms p t e (by omega)
                (by omega)
            rw [decodeField_congr hnested]
            obtain ⟨u, r, ⟨ok, dest'⟩, msg, rfl, hfield⟩ :=
              decodeField_contained hfields (fun ptr ms =>
                decodeLoop_contained hmem m (hmem ptr) pbFieldIterBegin noneSeen ms) iter' dest x
            rw [List.length_append] at hn hm
            rw [hfield t e]
            cases ok with
            | false => rfl
            | true =>
              exact decodeLoop_fuel hmem n m hfields iter' _ dest' r t _ (by omega) (by omega)

end EmbeddedTestbench.Nanopb
