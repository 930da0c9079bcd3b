import EmbeddedTestbench.ProtoBuff.Dispatch

/-!
# A walk that finds nothing (`ProtoBuff.c`)

`decode_unionmessage_type` answers `NULL` where it finds no union field, and
`_unmarshal_lookup_callback` looks that up like any other type. `add_handler` takes `NULL` as a
type, and then its handler is called for every buffer without a union field.

Headlines:
* **`mapAfter_ne_none_iff`**: a type is registered when one of its `add_handler` calls succeeded and
  no `clear_handlers` came after it.
* **`unmarshal_not_found_iff`**: a walk that finds nothing calls nothing, unless `NULL` is
  registered.
-/

namespace EmbeddedTestbench.ProtoBuff

open Nanopb IStream EmbeddedTestbench.Lib

variable {C R : Type}

/-- A call of `add_handler` with the type succeeded, and `clear_handlers` was not called after
it. -/
def Added (calls : List (Call FieldsAddr C)) (type : Option FieldsAddr) : Prop :=
  ∃ before callback after, calls = before ++ .add type callback :: after ∧ .clear ∉ after ∧
    (addHandler (runCalls before) type callback).1 = true

/-- What the last call has to do with it. -/
theorem added_append_singleton (calls : List (Call FieldsAddr C)) (call : Call FieldsAddr C)
    (type : Option FieldsAddr) :
    Added (calls ++ [call]) type ↔ (call ≠ .clear ∧ Added calls type) ∨
      ∃ callback, call = .add type callback ∧
        (addHandler (runCalls calls) type callback).1 = true := by
  constructor
  · rintro ⟨before, callback, after, hsplit, hclear, hadd⟩
    rcases List.eq_nil_or_concat' after with rfl | ⟨after, last, rfl⟩
    · obtain ⟨rfl, hlast⟩ := List.append_inj' hsplit rfl
      obtain rfl := (List.cons.inj hlast).1
      exact Or.inr ⟨callback, rfl, hadd⟩
    · rw [← List.cons_append, ← List.append_assoc] at hsplit
      obtain ⟨rfl, hlast⟩ := List.append_inj' hsplit rfl
      obtain rfl := (List.cons.inj hlast).1
      rw [List.mem_append, not_or, List.mem_singleton] at hclear
      exact Or.inl ⟨fun h => hclear.2 h.symm, before, callback, after, rfl, hclear.1, hadd⟩
  · rintro (⟨hne, before, callback, after, rfl, hclear, hadd⟩ | ⟨callback, rfl, hadd⟩)
    · refine ⟨before, callback, after ++ [call], by simp, ?_, hadd⟩
      rw [List.mem_append, not_or, List.mem_singleton]
      exact ⟨hclear, fun h => hne h.symm⟩
    · exact ⟨calls, callback, [], rfl, List.not_mem_nil, hadd⟩

/-- **A type is registered** when one of its `add_handler` calls succeeded and no `clear_handlers`
came after it. -/
theorem mapAfter_ne_none_iff (calls : List (Call FieldsAddr C)) (type : Option FieldsAddr) :
    mapAfter calls type ≠ none ↔ Added calls type := by
  induction calls using List.reverseRecOn with
  | nil =>
    refine iff_of_false (fun h => h rfl) ?_
    rintro ⟨before, callback, after, h, -⟩
    simp at h
  | append_singleton calls call ih =>
    rw [added_append_singleton, ← ih, mapAfter, List.foldl_append, ← mapAfter, List.foldl_cons,
      List.foldl_nil]
    cases call with
    | clear => simp [Call.applyMap, PMap.empty]
    | add type' callback =>
      have hroom := (addHandler_refines (runCalls_refines calls) type' callback).1
      show (mapAfter calls).extend 16 type' callback type ≠ none ↔ _
      rw [PMap.extend_ne_none_iff, ← hroom]
      constructor
      · rintro (hold | ⟨rfl, hadd⟩)
        · exact Or.inl ⟨by simp, hold⟩
        · exact Or.inr ⟨callback, rfl, hadd⟩
      · rintro (⟨-, hold⟩ | ⟨callback', hcall, hadd⟩)
        · exact Or.inl hold
        · obtain ⟨rfl, rfl⟩ := Call.add.inj hcall
          exact Or.inr ⟨rfl, hadd⟩

/-- **A walk that finds nothing calls nothing and answers `false`** exactly when no `add_handler`
call with `NULL` has succeeded since the last `clear_handlers`. -/
theorem unmarshal_not_found_iff (calls : List (Call FieldsAddr C))
    (call : Option C → Option FieldsAddr → IStream → R × IStream) (buf : List UInt8)
    (bufsize : Nat) (delimited : Bool) (stream : IStream)
    (hs : decodeStream buf bufsize delimited = some stream)
    (hnull : (decodeUnionmessageType stream).1 = none) :
    unmarshal (runCalls calls) call buf bufsize delimited = (false, []) ↔ ¬ Added calls none := by
  obtain ⟨hregistered, hunregistered⟩ :=
    unmarshal_of_type calls call hs (Prod.ext hnull rfl)
  rw [← mapAfter_ne_none_iff, not_not]
  constructor
  · intro hrun
    by_contra hne
    obtain ⟨callback, hmap⟩ := Option.ne_none_iff_exists'.mp hne
    rw [hregistered callback hmap] at hrun
    exact absurd (Prod.mk.inj hrun).1 (by simp)
  · exact hunregistered

/-- A handler for reports, and a buffer with a foreign field only. -/
theorem unmarshal_not_found_foreign :
    unmarshal (runCalls [.add (some .hidReport) (some ())])
      (fun _ _ stream => ((), stream)) [0x20, 0x07] 2 false = (false, []) := by
  have hadded : ¬ Added [Call.add (some FieldsAddr.hidReport) (some ())] none := by
    rw [← mapAfter_ne_none_iff, not_not]
    exact mapAfter_none_of_not_added fun callback => by simp
  exact (unmarshal_not_found_iff _ _ [0x20, 0x07] 2 false _ rfl (by decide +kernel)).mpr hadded

/-- A handler for `NULL` is called for the empty buffer, and `unmarshal` answers `true`. -/
theorem unmarshal_calls_null_handler :
    let calls : List (Call FieldsAddr Unit) := [.add none (some ())]
    (decodeUnionmessageType (pbIstreamFromBuffer [] 0)).1 = none ∧
      (unmarshal (runCalls calls) (fun _ _ stream => ((), stream)) [] 0 false).1 = true ∧
      ¬ ∀ (buf : List UInt8) (delimited : Bool) (stream : IStream),
        decodeStream buf buf.length delimited = some stream →
        (decodeUnionmessageType stream).1 = none →
        unmarshal (runCalls calls) (fun _ _ stream => ((), stream)) buf buf.length delimited
          = (false, []) := by
  intro calls
  have htrue : (unmarshal (runCalls calls) (fun _ _ stream => ((), stream)) [] 0 false).1 = true := by
    decide +kernel
  refine ⟨by decide, htrue, fun hall => ?_⟩
  have hfalse := hall [] false _ rfl (by decide)
  rw [show ([] : List UInt8).length = 0 from rfl] at hfalse
  rw [hfalse] at htrue
  exact absurd htrue (by simp)

end EmbeddedTestbench.ProtoBuff
