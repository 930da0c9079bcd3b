import EmbeddedTestbench.ProtoBuff.Dispatch

/-!
# Dispatching malformed buffers

The result of `pb_skip_field` is ignored in `decode_unionmessage_type`, so the walk goes on behind
a field that is broken off or has no wire type of its own, and may take bytes from inside it for a
union field.

Headlines:
* **`walk_fields_or_broken`**: a walk goes over complete fields only, or over a broken one.
* **`walk_of_call`**, **`call_of_walk`**: there is a call exactly where the walk ends at a union
  field with a handler.
* **`dispatch_on_complete_fields_iff`**: exactly when every call is for a union field behind
  complete fields.
-/

namespace EmbeddedTestbench.ProtoBuff

open Nanopb IStream EmbeddedTestbench.Lib

variable {C R : Type}

/-! ## Broken fields -/

/-- Any field. -/
def AnyField (_wireType _tag : Nat) : Prop := True

/-- A foreign field that is not complete, and the bytes where the walk goes on behind it. -/
def BrokenAt (w w' : List UInt8) : Prop :=
  ∃ k x wireType tag, w = k ++ x ∧ IsKey k wireType tag ∧ Foreign wireType tag ∧
    (∀ p r, x = p ++ r → ¬ Wire.Payload Accepts wireType p) ∧ w' = leftover wireType x

/-- The walk goes over a broken field before it stands at a union field with a handler. -/
def Misled (calls : List (Call FieldsAddr C)) (b : List UInt8) : Prop :=
  ∃ u w w' w'' type x, b = u ++ w ∧ Wire.Fields Accepts Accepts Foreign u ∧ BrokenAt w w' ∧
    WalkTo w' w'' ∧ UnionAt w'' type x ∧ mapAfter calls (some type) ≠ none

/-- The call was made for a union field of `b` that stands behind complete fields. -/
def CallRecord.BehindFields (b : List UInt8) (record : CallRecord C R) : Prop :=
  ∃ u k tag type, b = u ++ (k ++ record.stream.state) ∧
    Wire.Fields Accepts Accepts AnyField u ∧ IsKey k 2 tag ∧ record.type = some type ∧
    UnionType tag type

theorem BrokenAt.turn {w w' : List UInt8} (h : BrokenAt w w') : Turn w w' := by
  obtain ⟨k, x, wireType, tag, hw, hk, hforeign, -, hleft⟩ := h
  exact ⟨k, x, wireType, tag, hw, hk, hforeign, hleft⟩

/-- A turn goes over a complete field or a broken one. -/
theorem Turn.field_or_broken {w r : List UInt8} (h : Turn w r) :
    (∃ f wireType tag, w = f ++ r ∧ Wire.Field Accepts Accepts wireType tag f ∧
      Foreign wireType tag) ∨ BrokenAt w r := by
  obtain ⟨k, x, wireType, tag, rfl, hk, hforeign, rfl⟩ := h
  by_cases hx : ∃ p r, x = p ++ r ∧ Wire.Payload Accepts wireType p
  · obtain ⟨p, r, rfl, hp⟩ := hx
    rw [leftover_of_payload hp]
    exact Or.inl ⟨k ++ p, wireType, tag, (List.append_assoc _ _ _).symm,
      ⟨⟨k, p, rfl, hk.1, hp⟩, hk.2.1⟩, hforeign⟩
  · exact Or.inr ⟨k, x, wireType, tag, rfl, hk, hforeign,
      fun p r hpr hp => hx ⟨p, r, hpr, hp⟩, rfl⟩

/-- A walk goes over complete fields only, or over a broken one behind complete fields. -/
theorem walk_fields_or_broken {b w'' : List UInt8} (h : WalkTo b w'') :
    (∃ u, b = u ++ w'' ∧ Wire.Fields Accepts Accepts Foreign u) ∨
    ∃ u w w', b = u ++ w ∧ Wire.Fields Accepts Accepts Foreign u ∧ BrokenAt w w' ∧
      WalkTo w' w'' := by
  induction h using Relation.ReflTransGen.head_induction_on with
  | refl => exact Or.inl ⟨[], rfl, .nil⟩
  | head hturn hwalk ih =>
    rcases hturn.field_or_broken with ⟨f, wireType, tag, rfl, hf, hforeign⟩ | hbroken
    · rcases ih with ⟨u, rfl, hu⟩ | ⟨u, w, w', rfl, hu, hbroken, hwalk'⟩
      · exact Or.inl ⟨f ++ u, (List.append_assoc _ _ _).symm, .cons hf hforeign hu⟩
      · exact Or.inr ⟨f ++ u, w, w', (List.append_assoc _ _ _).symm, .cons hf hforeign hu,
          hbroken, hwalk'⟩
    · exact Or.inr ⟨[], _, _, rfl, .nil, hbroken, hwalk⟩

/-- Complete fields are split off a byte string in one way only. -/
theorem field_unique {wireType wireType' tag tag' : Nat} {f f' r r' : List UInt8}
    (hf : Wire.Field Accepts Accepts wireType tag f)
    (hf' : Wire.Field Accepts Accepts wireType' tag' f') (h : f ++ r = f' ++ r') : r = r' := by
  obtain ⟨k, p, rfl, hk, hp⟩ := isKey_of_field hf
  obtain ⟨k', p', rfl, hk', hp'⟩ := isKey_of_field hf'
  rw [List.append_assoc, List.append_assoc] at h
  obtain ⟨-, hpr, rfl, rfl⟩ := hk.unique hk' h
  exact ((skip_reads hp).unique (skip_reads hp') hpr).2.1

/-- A broken field does not start with a complete one. -/
theorem BrokenAt.ne_field {w w' f r : List UInt8} {wireType tag : Nat} (hw : BrokenAt w w')
    (hf : Wire.Field Accepts Accepts wireType tag f) : w ≠ f ++ r := by
  rintro rfl
  obtain ⟨k, x, wireType', tag', heq, hk', -, hbroken, -⟩ := hw
  obtain ⟨k, p, rfl, hk, hp⟩ := isKey_of_field hf
  rw [List.append_assoc] at heq
  obtain ⟨-, rfl, rfl, -⟩ := hk.unique hk' heq
  exact hbroken p r rfl hp

/-- Behind complete foreign fields there is a broken field or a union field, not both. -/
theorem BrokenAt.not_union_behind_fields {w w' x u : List UInt8} {type : FieldsAddr}
    (hw : BrokenAt w w') (hu : Wire.Fields Accepts Accepts Foreign u) :
    ∀ {v y : List UInt8}, Wire.Fields Accepts Accepts AnyField v → UnionAt y type x →
      u ++ w ≠ v ++ y := by
  induction hu with
  | nil =>
    intro v y hv hy heq
    cases hv with
    | nil =>
      rw [List.nil_append, List.nil_append] at heq
      exact hy.not_turn (heq ▸ hw.turn)
    | cons hf _ _ =>
      rw [List.append_assoc] at heq
      exact hw.ne_field hf heq
  | @cons wireType tag f u hf hforeign _ ih =>
    intro v y hv hy heq
    rw [List.append_assoc] at heq
    cases hv with
    | nil => exact hy.not_turn (heq ▸ turn_of_field hf hforeign (u ++ w))
    | cons hf' _ hv =>
      rw [List.append_assoc] at heq
      exact ih hv hy (field_unique hf hf' heq)

/-- Every call is made where the walk ends, at a union field with a handler. -/
theorem walk_of_call {calls : List (Call FieldsAddr C)}
    (hcalls : ∀ callback, .add none callback ∉ calls)
    {call : Option C → Option FieldsAddr → IStream → R × IStream} {b : List UInt8}
    {record : CallRecord C R}
    (h : record ∈ (unmarshal (runCalls calls) call b b.length false).2) :
    ∃ w type, record.type = some type ∧ WalkTo b w ∧ UnionAt w type record.stream.state ∧
      mapAfter calls (some type) ≠ none := by
  rcases decodeUnionmessageType_walk b [] none with ⟨w, type, x, e, hwalk, hu, hrun⟩ | hnone
  · obtain ⟨hreg, hunreg⟩ := unmarshal_of_type calls call (decodeStream_undelimited b) hrun
    cases hm : mapAfter calls (some type) with
    | none =>
      rw [hunreg hm] at h
      exact absurd h List.not_mem_nil
    | some callback =>
      rw [hreg callback hm] at h
      obtain rfl := List.mem_singleton.mp h
      refine ⟨w, type, rfl, hwalk, ?_, by rw [hm]; simp⟩
      rwa [window_state, List.append_nil]
  · have hnull : mapAfter calls none = none := mapAfter_none_of_not_added hcalls
    rw [(unmarshal_of_type calls call (decodeStream_undelimited b) (Prod.ext hnone rfl)).2
      hnull] at h
    exact absurd h List.not_mem_nil

/-- Where the walk ends at a union field with a handler, there is a call. -/
theorem call_of_walk {calls : List (Call FieldsAddr C)}
    (call : Option C → Option FieldsAddr → IStream → R × IStream) {b w x : List UInt8}
    {type : FieldsAddr} (hwalk : WalkTo b w) (hu : UnionAt w type x)
    (hm : mapAfter calls (some type) ≠ none) :
    ∃ record ∈ (unmarshal (runCalls calls) call b b.length false).2,
      record.type = some type ∧ record.stream.state = x := by
  obtain ⟨callback, hcb⟩ := Option.ne_none_iff_exists'.mp hm
  obtain ⟨e, hrun⟩ := decodeUnionmessageType_of_walk (t := []) hwalk hu none
  have hreg := (unmarshal_of_type calls call (decodeStream_undelimited b) hrun).1 callback hcb
  rw [hreg]
  exact ⟨_, List.mem_singleton.mpr rfl, rfl, by rw [window_state, List.append_nil]⟩

/-- A walk that is misled ends in a call for bytes that are no field of `b`. -/
theorem Misled.call {calls : List (Call FieldsAddr C)}
    (call : Option C → Option FieldsAddr → IStream → R × IStream) {b : List UInt8}
    (h : Misled calls b) :
    ∃ record ∈ (unmarshal (runCalls calls) call b b.length false).2, ¬ record.BehindFields b := by
  obtain ⟨u, w, w', w'', type, x, rfl, hu, hbroken, hwalk, hx, hm⟩ := h
  obtain ⟨record, hrecord, -, hstate⟩ :=
    call_of_walk call ((walkTo_of_fields hu w).trans (hwalk.head hbroken.turn)) hx hm
  refine ⟨record, hrecord, ?_⟩
  rintro ⟨v, k, tag, type', heq, hv, hk, -, ht⟩
  exact hbroken.not_union_behind_fields hu hv ⟨k, tag, rfl, hk, ht⟩ heq

/-- **A call is made for a union field behind complete fields, unless the walk is misled** by a
broken field, whose failed skip it does not notice. -/
theorem dispatch_on_complete_fields_iff (calls : List (Call FieldsAddr C))
    (hcalls : ∀ callback, .add none callback ∉ calls)
    (call : Option C → Option FieldsAddr → IStream → R × IStream) (b : List UInt8) :
    (∀ record ∈ (unmarshal (runCalls calls) call b b.length false).2, record.BehindFields b) ↔
      ¬ Misled calls b := by
  constructor
  · intro hall hmisled
    obtain ⟨record, hrecord, hnot⟩ := hmisled.call call
    exact hnot (hall record hrecord)
  · intro hnot record hrecord
    obtain ⟨w, type, htype, hwalk, hu, hm⟩ := walk_of_call hcalls hrecord
    rcases walk_fields_or_broken hwalk with ⟨u, heq, hfields⟩ | ⟨v, y, w', heq, hv, hy, hwalk'⟩
    · obtain ⟨k, tag, rfl, hk, ht⟩ := hu
      exact ⟨u, k, tag, type, heq, hfields.mono (fun _ _ => id) (fun _ _ => id)
        (fun _ _ _ => trivial), hk, htype, ht⟩
    · exact absurd ⟨v, y, w', w, type, _, heq, hv, hy, hwalk', hu, hm⟩ hnot

/-- A report behind a complete field: the walk is not misled. -/
theorem not_misled_report :
    let calls : List (Call FieldsAddr Unit) := [.add (some .hidReport) (some ())]
    let b : List UInt8 := [0x08, 0x01, 0x12, 0x02, 0x0A, 0x00]
    let call := decodeCallback fun _ => Message.slots (⟨.zero 256⟩ : HIDReport)
    (unmarshal (runCalls calls) call b b.length false).1 = true ∧ ¬ Misled calls b := by
  intro calls b call
  refine ⟨by decide +kernel, (dispatch_on_complete_fields_iff calls (by simp [calls]) call b).mp ?_⟩
  have hrun : ∀ record ∈ (unmarshal (runCalls calls) call b b.length false).2,
      record.type = some .hidReport ∧ record.stream.state = [0x02, 0x0A, 0x00] := by
    decide +kernel
  intro record hrecord
  obtain ⟨htype, hstate⟩ := hrun record hrecord
  refine ⟨[0x08, 0x01], [0x12], 2, .hidReport, by rw [hstate]; rfl, ?_, ?_, htype, .hidReport⟩
  · have hfield : Wire.Field Accepts Accepts 0 1 [0x08, 0x01] :=
      ⟨⟨[0x08], [0x01], rfl, accepts_of_varint32 (by decide), .varint (by decide)⟩, by decide⟩
    exact hfield.single trivial
  · exact isKey_of_varint32 (by decide)

/-- The group `0x0B` is not a field of nanopb: its skip fails, and the report inside is taken for a
message of its own. -/
theorem dispatch_inside_broken_field :
    let calls : List (Call FieldsAddr Unit) := [.add (some .hidReport) (some ())]
    let b : List UInt8 := [0x0B, 0x12, 0x02, 0x0A, 0x00, 0x0C]
    ¬ ∀ record ∈ (unmarshal (runCalls calls)
      (decodeCallback fun _ => Message.slots (⟨.zero 256⟩ : HIDReport)) b b.length false).2,
      record.BehindFields b := by
  intro calls b hall
  have hgroup : IsKey [0x0B] 3 1 := isKey_of_varint32 (by decide)
  have hkey : IsKey [0x12] 2 2 := isKey_of_varint32 (by decide)
  have hbroken : BrokenAt b [0x12, 0x02, 0x0A, 0x00, 0x0C] := by
    refine ⟨[0x0B], _, 3, 1, rfl, hgroup, by decide, ?_, rfl⟩
    rintro p r - ⟨⟩
  have hunion : UnionAt [0x12, 0x02, 0x0A, 0x00, 0x0C] .hidReport [0x02, 0x0A, 0x00, 0x0C] :=
    ⟨[0x12], 2, rfl, hkey, .hidReport⟩
  have hmisled : Misled calls b := ⟨[], b, _, _, .hidReport, _, rfl, .nil, hbroken, .refl, hunion, by
    rw [mapAfter_single]
    simp⟩
  obtain ⟨record, hrecord, hnot⟩ := hmisled.call
    (decodeCallback fun _ => Message.slots (⟨.zero 256⟩ : HIDReport))
  exact hnot (hall record hrecord)

end EmbeddedTestbench.ProtoBuff
