import Mathlib.Data.List.Nodup

/-!
# Field tables and struct memory (`pb.h`, `pb_common.c`)

A field table is the list of its `pb_field_t` entries without the terminator `PB_LAST_FIELD`, which
is behind the last of them: the table of an empty message type is `[]`, and begins with it.
`P` is the type of the addresses of field tables: `ptr` points to the table of a submessage, and
`mem : P → List (PbField P)` is the constant memory the tables live in.

Only the kinds of field that occur in `hid.proto` are here, all `PB_ATYPE_STATIC`: required and
optional; string, unsigned varint and submessage. None has a default value, so `ptr` is `none`
(`NULL`) on a scalar. No message has an extension or a repeated field, so the parts of
`pb_decode_noinit` that serve those are left out.

A struct is modelled by the list of its members in table order (`Slot`); `pData` is the index of
the current one, and an optional member keeps its `has_` flag with it.
-/

namespace EmbeddedTestbench.Nanopb

/-- `PB_LTYPE` of a field. -/
inductive LType where
  | uvarint
  | string
  | submessage
  deriving DecidableEq, Repr

/-- `PB_HTYPE` of a field. -/
inductive HType where
  | required
  | optional
  deriving DecidableEq, Repr

/-- `PB_LTYPE_UVARINT`, `PB_LTYPE_STRING`, `PB_LTYPE_SUBMESSAGE`. -/
def LType.code : LType → UInt8
  | .uvarint => 0x01
  | .string => 0x06
  | .submessage => 0x07

/-- `PB_HTYPE_REQUIRED`, `PB_HTYPE_OPTIONAL`. -/
def HType.code : HType → UInt8
  | .required => 0x00
  | .optional => 0x10

/-- `pb_field_t`. -/
structure PbField (P : Type) where
  tag : Nat
  htype : HType
  ltype : LType
  dataSize : Nat
  ptr : Option P
  deriving DecidableEq, Repr

/-- The byte `pb_field_t.type`. -/
def PbField.type {P : Type} (field : PbField P) : UInt8 := field.htype.code ||| field.ltype.code

/-- The sizes of the unsigned integer types. -/
def validDataSize (dataSize : Nat) : Bool :=
  dataSize == 8 || dataSize == 4 || dataSize == 2 || dataSize == 1

/-- A member of a struct in memory. -/
inductive Slot where
  /-- `char member[n]`. -/
  | chars (a : List UInt8)
  /-- An unsigned integer of the field's `data_size` bytes. -/
  | uint (v : UInt64)
  /-- A struct. -/
  | struct (members : List Slot)
  /-- `bool has_member` and the member. -/
  | optional (has : Bool) (member : Slot)
  deriving Repr

/-- The bytes of a character array. -/
def Slot.bytes : Slot → List UInt8
  | .chars a => a
  | _ => []

/-- The members of a struct. -/
def Slot.members : Slot → List Slot
  | .struct ms => ms
  | _ => []

/-- The value of an integer member. -/
def Slot.value : Slot → UInt64
  | .uint v => v
  | _ => 0

/-- `*pSize`: a required member has no flag, and `implicit_has` stands for it. -/
def Slot.has : Slot → Bool
  | .optional has _ => has
  | _ => true

/-- The `PB_HTYPE` of a member. -/
def Slot.htype : Slot → HType
  | .optional _ _ => .optional
  | _ => .required

variable {P : Type}

/-! ## `pb_field_iter_t` -/

/-- `pb_field_iter_t`: the index of the current field, and how many required fields are before
it. -/
structure PbFieldIter where
  pos : Nat
  requiredFieldIndex : Nat
  deriving DecidableEq, Repr

/-- `pb_field_iter_begin`. -/
def pbFieldIterBegin : PbFieldIter := ⟨0, 0⟩

/-- Whether the field at `pos` is `PB_HTYPE_REQUIRED`. -/
def requiredAt (fields : List (PbField P)) (pos : Nat) : Bool :=
  fields[pos]?.any fun f => f.htype == .required

/-- `pos->tag`: behind the last field, that of the terminator. -/
def tagAt (fields : List (PbField P)) (pos : Nat) : Nat := (fields[pos]?.map PbField.tag).getD 0

/-- `pb_field_iter_next`: `false` when the iterator wraps back to the first field. -/
def pbFieldIterNext (fields : List (PbField P)) (iter : PbFieldIter) : Bool × PbFieldIter :=
  match fields[iter.pos]? with
  | none => (false, iter) -- an empty message type: the first entry is the terminator
  | some prevField =>
    if iter.pos + 1 < fields.length then
      (true, ⟨iter.pos + 1,
        iter.requiredFieldIndex + (if prevField.htype == .required then 1 else 0)⟩)
    else (false, pbFieldIterBegin)

/-- The `do … while` of `pb_field_iter_find`; `n` bounds the turns. -/
def iterFindLoop (fields : List (PbField P)) (tag start : Nat) :
    Nat → PbFieldIter → Bool × PbFieldIter
  | 0, iter => (false, iter)
  | n + 1, iter =>
    if tagAt fields iter.pos = tag then (true, iter)
    else
      let iter := (pbFieldIterNext fields iter).2
      if iter.pos = start then (false, iter) else iterFindLoop fields tag start n iter

/-- `pb_field_iter_find`: goes once round the table from the current field. In an empty table it
finds the terminator, where the tag is zero. -/
def pbFieldIterFind (fields : List (PbField P)) (tag : Nat) (iter : PbFieldIter) :
    Bool × PbFieldIter :=
  iterFindLoop fields tag iter.pos (fields.length + 1) iter

/-- The iterator at the last field: `while (pb_field_iter_next(&iter))`, as it stood before the
wrap. -/
def iterSeekEnd (fields : List (PbField P)) : Nat → PbFieldIter → PbFieldIter
  | 0, iter => iter
  | n + 1, iter =>
    match pbFieldIterNext fields iter with
    | (true, iter) => iterSeekEnd fields n iter
    | (false, _) => iter

/-! ## The iterator is where it says -/

/-- The iterator that stands at field `i`. -/
def iterAt (fields : List (PbField P)) (i : Nat) : PbFieldIter :=
  ⟨i, (fields.take i).countP fun f => f.htype == .required⟩

/-- A step inside the table. -/
theorem pbFieldIterNext_iterAt {fields : List (PbField P)} {i : Nat} (h : i + 1 < fields.length) :
    pbFieldIterNext fields (iterAt fields i) = (true, iterAt fields (i + 1)) := by
  have hi : i < fields.length := by omega
  have hget : fields[(iterAt fields i).pos]? = some fields[i] := List.getElem?_eq_getElem hi
  unfold pbFieldIterNext
  rw [hget]
  dsimp only
  rw [iterAt, if_pos h, iterAt, List.take_succ_eq_append_getElem hi, List.countP_append,
    List.countP_singleton]

/-- The step past the last field wraps. -/
theorem pbFieldIterNext_last {fields : List (PbField P)} {i : Nat} (hi : i < fields.length)
    (h : fields.length ≤ i + 1) :
    pbFieldIterNext fields (iterAt fields i) = (false, iterAt fields 0) := by
  have hget : fields[(iterAt fields i).pos]? = some fields[i] := List.getElem?_eq_getElem hi
  have hend : ¬ (iterAt fields i).pos + 1 < fields.length := Nat.not_lt.mpr h
  unfold pbFieldIterNext
  rw [hget]
  dsimp only
  rw [if_neg hend]
  rfl

/-- One turn of the search: the field at hand, or the next one round the table. -/
theorem iterFindLoop_iterAt {fields : List (PbField P)} {tag start i n : Nat}
    (hi : i < fields.length) :
    iterFindLoop fields tag start (n + 1) (iterAt fields i) =
      if fields[i].tag = tag then (true, iterAt fields i)
      else
        let j := if i + 1 < fields.length then i + 1 else 0
        if j = start then (false, iterAt fields j)
        else iterFindLoop fields tag start n (iterAt fields j) := by
  have hnext : (pbFieldIterNext fields (iterAt fields i)).2
      = iterAt fields (if i + 1 < fields.length then i + 1 else 0) := by
    split_ifs with h
    · rw [pbFieldIterNext_iterAt h]
    · rw [pbFieldIterNext_last hi (by omega)]
  have htag : tagAt fields (iterAt fields i).pos = fields[i].tag := by
    show (fields[i]?.map PbField.tag).getD 0 = _
    rw [List.getElem?_eq_getElem hi]
    rfl
  simp only [iterFindLoop, hnext, htag]
  rfl

/-- Position `x` of a walk round a table of `n` fields, for less than two rounds. -/
def wrap (n x : Nat) : Nat := if x < n then x else x - n

theorem wrap_lt {n x : Nat} (h : x < 2 * n) : wrap n x < n := by
  unfold wrap
  split_ifs <;> omega

theorem wrap_succ {n i m : Nat} (h : i + m + 1 < 2 * n) :
    (if wrap n (i + m) + 1 < n then wrap n (i + m) + 1 else 0) = wrap n (i + (m + 1)) := by
  unfold wrap
  split_ifs <;> omega

/-- The walk from `i` is back at `i` after a full round only. -/
theorem wrap_eq_start {n i m : Nat} (hm0 : 0 < m) (hm : m ≤ n) :
    wrap n (i + m) = i ↔ m = n := by
  unfold wrap
  split_ifs with h
  · constructor <;> intro heq <;> omega
  · constructor <;> intro heq <;> omega

/-- A tag names one field of a table without duplicate tags. -/
theorem tag_inj {fields : List (PbField P)} (hnd : (fields.map PbField.tag).Nodup) {i j : Nat}
    (hi : i < fields.length) (hj : j < fields.length) (h : fields[i].tag = fields[j].tag) :
    i = j := by
  have hi' : i < (fields.map PbField.tag).length := by rwa [List.length_map]
  have hj' : j < (fields.map PbField.tag).length := by rwa [List.length_map]
  have h' : (fields.map PbField.tag)[i] = (fields.map PbField.tag)[j] := by
    rwa [List.getElem_map, List.getElem_map]
  exact hnd.getElem_inj_iff.mp h'

theorem iterFindLoop_found {fields : List (PbField P)} (hnd : (fields.map PbField.tag).Nodup)
    {i k : Nat} (hi : i < fields.length) (hk : k < fields.length) : ∀ (d m n : Nat), d < n →
      m + d < fields.length → wrap fields.length (i + (m + d)) = k →
      iterFindLoop fields fields[k].tag i n (iterAt fields (wrap fields.length (i + m)))
        = (true, iterAt fields k)
  | _, _, 0, h, _, _ => absurd h (Nat.not_lt_zero _)
  | d, m, n + 1, hd, hm, hw => by
    have hp : wrap fields.length (i + m) < fields.length := wrap_lt (by omega)
    rw [iterFindLoop_iterAt hp]
    by_cases htag : fields[wrap fields.length (i + m)].tag = fields[k].tag
    · rw [if_pos htag, tag_inj hnd hp hk htag]
    · match d with
      | 0 =>
        obtain rfl : wrap fields.length (i + m) = k := hw
        exact absurd rfl htag
      | d + 1 =>
        have hround : i + m + 1 < 2 * fields.length := by omega
        rw [if_neg htag]
        simp only [wrap_succ hround]
        have hstart : wrap fields.length (i + (m + 1)) ≠ i := fun h => by
          have := (wrap_eq_start (Nat.succ_pos m) (by omega)).mp h
          omega
        rw [if_neg hstart]
        exact iterFindLoop_found hnd hi hk d (m + 1) n (by omega) (by omega) (by
          rw [← hw]
          congr 2
          omega)

/-- **The search finds the field with the tag**, from wherever the iterator stands. -/
theorem pbFieldIterFind_found {fields : List (PbField P)} (hnd : (fields.map PbField.tag).Nodup)
    {i k : Nat} (hi : i < fields.length) (hk : k < fields.length) :
    pbFieldIterFind fields fields[k].tag (iterAt fields i) = (true, iterAt fields k) := by
  have h0 : wrap fields.length (i + 0) = i := if_pos hi
  have := iterFindLoop_found hnd hi hk (if i ≤ k then k - i else k + fields.length - i) 0
    (fields.length + 1) (by split_ifs <;> omega) (by split_ifs <;> omega) (by
      unfold wrap
      split_ifs <;> omega)
  rwa [h0] at this

theorem iterFindLoop_missing {fields : List (PbField P)} {tag i : Nat}
    (hno : ∀ f ∈ fields, f.tag ≠ tag) (hi : i < fields.length) : ∀ (n m : Nat),
      m < fields.length → fields.length < m + n →
      iterFindLoop fields tag i n (iterAt fields (wrap fields.length (i + m)))
        = (false, iterAt fields i)
  | 0, _, h, hn => absurd hn (Nat.lt_asymm h)
  | n + 1, m, hm, hn => by
    have hp : wrap fields.length (i + m) < fields.length := wrap_lt (by omega)
    have hround : i + m + 1 < 2 * fields.length := by omega
    rw [iterFindLoop_iterAt hp, if_neg (hno _ (List.getElem_mem hp))]
    simp only [wrap_succ hround]
    by_cases hlast : m + 1 = fields.length
    · rw [if_pos ((wrap_eq_start (Nat.succ_pos m) (by omega)).mpr hlast),
        (wrap_eq_start (Nat.succ_pos m) (by omega)).mpr hlast]
    · rw [if_neg fun h => hlast ((wrap_eq_start (Nat.succ_pos m) (by omega)).mp h)]
      exact iterFindLoop_missing hno hi n (m + 1) (by omega) (by omega)

/-- A search for a tag that no field has leaves the iterator where it was. -/
theorem pbFieldIterFind_missing {fields : List (PbField P)} {tag i : Nat}
    (hno : ∀ f ∈ fields, f.tag ≠ tag) (hi : i < fields.length) :
    pbFieldIterFind fields tag (iterAt fields i) = (false, iterAt fields i) := by
  have h0 : wrap fields.length (i + 0) = i := if_pos hi
  have := iterFindLoop_missing hno hi (fields.length + 1) 0 (by omega) (by omega)
  rwa [h0] at this

/-- In an empty table a search finds the terminator, or nothing. -/
theorem pbFieldIterFind_nil (tag : Nat) :
    pbFieldIterFind ([] : List (PbField P)) tag pbFieldIterBegin
      = (decide (tag = 0), pbFieldIterBegin) := by
  have hstart : tagAt ([] : List (PbField P)) pbFieldIterBegin.pos = 0 := rfl
  rw [pbFieldIterFind, List.length_nil, iterFindLoop, hstart]
  by_cases htag : tag = 0
  · rw [if_pos htag.symm, decide_eq_true htag]
  · rw [if_neg (Ne.symm htag), decide_eq_false htag]
    rfl

/-- Seeking the end stops at the last field. -/
theorem iterSeekEnd_iterAt {fields : List (PbField P)} : ∀ (n i : Nat), i < fields.length →
    fields.length ≤ i + n → iterSeekEnd fields n (iterAt fields i)
      = iterAt fields (fields.length - 1)
  | 0, i, hi, hn => absurd hi (by omega)
  | n + 1, i, hi, hn => by
    unfold iterSeekEnd
    by_cases h : i + 1 < fields.length
    · rw [pbFieldIterNext_iterAt h]
      exact iterSeekEnd_iterAt n (i + 1) h (by omega)
    · obtain rfl : i = fields.length - 1 := by omega
      rw [pbFieldIterNext_last hi (by omega)]

end EmbeddedTestbench.Nanopb
